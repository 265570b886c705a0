import Mathlib.Tactic
import Teensy3.Lib.ByteMem
import Teensy3.Lib.Run

/-!
# Printing what comes in on a UART

`uartdma.ino` has the bytes of a UART written to `rx_buffer` by the DMA, in a circle, with an interrupt
after each half.  The handler puts the half that is complete into `dest`, and `loop()`, when `dest` is
not null, prints the half that is there and sets `dest` to null.  When the handler comes just before
that, what it has put into `dest` is lost.

* `State`, `step`: the DMA, the handler and `loop()`, all of whose accesses are interleaved;
* `completed`: the bytes of the halves that are complete;
* `Timely`: a half is complete only after `loop()` has read the one before;
* `Undisturbed`: the handler does not come between the last byte of a half and `dest = 0`;
* `Inv`: the invariant; `rank`, `due`: how much is left to be done until a half has been printed, and
  who is to do it.
-/

namespace UartDma

open Machine

/-- `SAMPLES` -/
def samples : ℕ := 1024

/-- Where the handler is. -/
inductive Isr
  /-- before `dma.clearInterrupt()` -/
  | idle
  /-- `daddr = (uint32_t)(dma.TCD->DADDR)` -/
  | readDaddr
  /-- `dest = …` -/
  | store (half : ℕ)
  deriving DecidableEq, Repr

/-- Where `loop()` is. -/
inductive Loop
  /-- `if (dest)` -/
  | check
  /-- `Serial.print((char)dest[i])` -/
  | print (i : ℕ)
  /-- `dest = 0` -/
  | clear
  deriving DecidableEq, Repr

/-- The DMA channel is at the byte `pos` of the buffer, and `pending` is its interrupt; `dest` is an
index into the buffer, or null.  The bytes that `loop()` has read from the buffer are in `printed`. -/
structure State where
  buffer : ℕ → Byte
  pos : ℕ := 0
  pending : Bool := false
  /-- how many bytes have been received -/
  received : ℕ := 0
  isr : Isr := .idle
  dest : Option ℕ := none
  loop : Loop := .check
  /-- how many bytes `loop()` has read -/
  read : ℕ := 0
  printed : List Byte := []

inductive Event
  | dma
  /-- the next access of the handler -/
  | isr
  /-- the next access of `loop()` -/
  | loop
  deriving DecidableEq, Repr

/-- The next byte of the line is received; there is an interrupt after each half. -/
def dma (line : ℕ → Byte) (s : State) : State :=
  { s with
    buffer := Function.update s.buffer s.pos (line s.received)
    received := s.received + 1
    pos := if s.pos + 1 = samples then 0 else s.pos + 1
    pending := s.pending || decide (s.pos + 1 = samples / 2 ∨ s.pos + 1 = samples) }

/-- `isr` -/
def isr (s : State) : State :=
  match s.isr with
  | .idle => if s.pending then { s with pending := false, isr := .readDaddr } else s
  | .readDaddr => { s with isr := .store (if s.pos < samples / 2 then samples / 2 else 0) }
  | .store half => { s with dest := some half, isr := .idle }

/-- `loop`, which does not run while the handler does. -/
def loop (s : State) : State :=
  if s.isr ≠ .idle then s
  else
    match s.loop, s.dest with
    | .check, none => s
    | .check, some _ => { s with loop := .print 0 }
    | .print i, some half =>
      { s with
        printed := s.printed ++ [s.buffer (half + i)]
        read := s.read + 1
        loop := if i + 1 < samples / 2 then .print (i + 1) else .clear }
    -- `dest` is set to null by `loop()` alone
    | .print _, none => s
    | .clear, _ => { s with dest := none, loop := .check }

def step (line : ℕ → Byte) (s : State) : Event → State
  | .dma => dma line s
  | .isr => isr s
  | .loop => loop s

/-- How many halves are complete. -/
def halves (s : State) : ℕ := s.received / (samples / 2)

/-- The bytes of the halves that are complete. -/
def completed (line : ℕ → Byte) (s : State) : List Byte :=
  (List.range (samples / 2 * halves s)).map line

/-! ### Conditions -/

/-- When a half becomes complete, `loop()` has read all bytes of those before. -/
def Timely (s : State) : Event → Prop
  | .dma => s.pos + 1 = samples / 2 ∨ s.pos + 1 = samples → s.read = samples / 2 * halves s
  | _ => True

instance (s : State) : ∀ e, Decidable (Timely s e)
  | .dma => inferInstanceAs (Decidable
      (s.pos + 1 = samples / 2 ∨ s.pos + 1 = samples → s.read = samples / 2 * halves s))
  | .isr => .isTrue trivial
  | .loop => .isTrue trivial

/-- The interrupt is not taken after `loop()` has read the last byte of a half and before it executes
`dest = 0`. -/
def Undisturbed (s : State) : Event → Prop
  | .isr => s.isr = .idle → s.pending = true → s.loop ≠ .clear
  | _ => True

instance (s : State) : ∀ e, Decidable (Undisturbed s e)
  | .isr => inferInstanceAs (Decidable (s.isr = .idle → s.pending = true → s.loop ≠ .clear))
  | .dma => .isTrue trivial
  | .loop => .isTrue trivial

/-- What is asked of a step. -/
def Orderly (s : State) (e : Event) : Prop := Timely s e ∧ Undisturbed s e

instance (s : State) (e : Event) : Decidable (Orderly s e) :=
  inferInstanceAs (Decidable (Timely s e ∧ Undisturbed s e))

/-- The handler and `loop()` go on for ever. -/
structure Fair (events : ℕ → Event) : Prop where
  isr : ∀ n, ∃ m, n ≤ m ∧ events m = .isr
  loop : ∀ n, ∃ m, n ≤ m ∧ events m = .loop

/-! ### The invariant -/

/-- The half that was complete last is in the buffer. -/
def Holds (line buffer : ℕ → Byte) (b : ℕ) : Prop :=
  ∀ j < 512, buffer (512 * (b % 2) + j) = line (512 * b + j)

/-- How far the handler and `loop()` are with the last one of `h` halves: it is pending, it is being
put into `dest`, or it is being printed, and all are printed after that. -/
def Phase (s : State) (h : ℕ) : Prop :=
  match s.isr with
  | .idle =>
    if s.pending then
      s.read + 512 = 512 * h ∧ (s.loop = .check ∧ s.dest = none ∨ s.loop = .clear)
    else
      match s.loop with
      | .check => s.read = 512 * h ∧ s.dest = none ∨
          s.read + 512 = 512 * h ∧ s.dest = some (512 * ((h + 1) % 2))
      | .print i => i < 512 ∧ s.read + 512 = 512 * h + i ∧ s.dest = some (512 * ((h + 1) % 2))
      | .clear => s.read = 512 * h
  | .readDaddr => s.pending = false ∧ s.read + 512 = 512 * h ∧ s.loop = .check ∧ s.dest = none
  | .store half => s.pending = false ∧ s.read + 512 = 512 * h ∧ s.loop = .check ∧ s.dest = none ∧
      half = 512 * ((h + 1) % 2)

/-- **The invariant**, when `h` halves are complete. -/
structure Inv (line : ℕ → Byte) (s : State) (h : ℕ) : Prop where
  halves : s.received / 512 = h
  pos : s.pos = s.received % 1024
  filling : ∀ j < s.received % 512, s.buffer (512 * (h % 2) + j) = line (512 * h + j)
  last : ∀ b, b + 1 = h → Holds line s.buffer b
  printed : s.printed = (List.range s.read).map line
  phase : Phase s h

variable {line : ℕ → Byte} {s : State} {h : ℕ}

theorem inv_start (line buffer : ℕ → Byte) : Inv line { buffer } 0 := by
  refine ⟨Nat.zero_div 512, (Nat.zero_mod 1024).symm, ?_, ?_, rfl, .inl ⟨rfl, rfl⟩⟩
  · intro j hj
    exact absurd hj (Nat.not_lt_zero j)
  · intro b hb
    exact absurd hb (Nat.succ_ne_zero b)

/-! ### The DMA -/

/-- When everything has been read, nothing is to be done but `dest = 0`. -/
theorem idle_of_read (hphase : Phase s h) (hread : s.read = 512 * h) :
    s.isr = .idle ∧ s.pending = false ∧ (s.loop = .check ∧ s.dest = none ∨ s.loop = .clear) := by
  unfold Phase at hphase
  split at hphase
  · next hisr =>
    split at hphase
    · omega
    · next hpending =>
      refine ⟨hisr, Bool.eq_false_iff.2 hpending, ?_⟩
      split at hphase
      · next hloop =>
        rcases hphase with ⟨-, hdest⟩ | ⟨hless, -⟩
        · exact .inl ⟨hloop, hdest⟩
        · omega
      · omega
      · next hloop => exact .inr hloop
  · omega
  · omega

theorem pending_dma (hinv : Inv line s h) (hwithin : s.received % 512 ≠ 511) :
    (dma line s).pending = s.pending := by
  have hpos := hinv.pos
  have hnot : ¬ (s.pos + 1 = samples / 2 ∨ s.pos + 1 = samples) := by
    simp only [samples]
    omega
  simp only [dma, hnot, decide_false, Bool.or_false]

theorem pos_dma (hinv : Inv line s h) : (dma line s).pos = (s.received + 1) % 1024 := by
  have hpos := hinv.pos
  change (if s.pos + 1 = samples then 0 else s.pos + 1) = _
  by_cases hend : s.pos + 1 = samples
  · rw [if_pos hend]
    simp only [samples] at hend
    omega
  · rw [if_neg hend]
    simp only [samples] at hend
    omega

/-- The byte that is received is the next one of its half. -/
theorem filling_dma (hinv : Inv line s h) {j : ℕ} (hj : j ≤ s.received % 512) :
    (dma line s).buffer (512 * (h % 2) + j) = line (512 * h + j) := by
  have hhalves := hinv.halves
  have hpos := hinv.pos
  change Function.update s.buffer s.pos (line s.received) _ = _
  by_cases hnext : j = s.received % 512
  · have hself : 512 * (h % 2) + j = s.pos := by
      omega
    rw [hself, Function.update_self]
    congr 1
    omega
  · rw [Function.update_of_ne (by omega)]
    exact hinv.filling j (by omega)

/-- A byte within a half. -/
theorem inv_dma_within (hinv : Inv line s h) (hwithin : s.received % 512 ≠ 511) :
    Inv line (dma line s) h := by
  have hhalves := hinv.halves
  have hpos := hinv.pos
  have hpending := pending_dma hinv hwithin
  refine ⟨?_, pos_dma hinv, ?_, ?_, hinv.printed, ?_⟩
  · change (s.received + 1) / 512 = h
    omega
  · intro j hj
    replace hj : j < (s.received + 1) % 512 := hj
    exact filling_dma hinv (by omega)
  · intro b hb j hj
    change Function.update s.buffer s.pos (line s.received) _ = _
    rw [Function.update_of_ne (by omega)]
    exact hinv.last b hb j hj
  · have hphase := hinv.phase
    unfold Phase at hphase ⊢
    rw [hpending]
    exact hphase

/-- The last byte of a half. -/
theorem inv_dma_last (hinv : Inv line s h) (hlast : s.received % 512 = 511)
    (hread : s.read = 512 * h) : Inv line (dma line s) (h + 1) := by
  have hhalves := hinv.halves
  have hpos := hinv.pos
  obtain ⟨hisr, -, hloop⟩ := idle_of_read hinv.phase hread
  refine ⟨?_, pos_dma hinv, ?_, ?_, hinv.printed, ?_⟩
  · change (s.received + 1) / 512 = h + 1
    omega
  · intro j hj
    replace hj : j < (s.received + 1) % 512 := hj
    omega
  · intro b hb j hj
    obtain rfl : b = h := Nat.succ.inj hb
    exact filling_dma hinv (by omega)
  · have hpending : (dma line s).pending = true := by
      have hend : s.pos + 1 = samples / 2 ∨ s.pos + 1 = samples := by
        simp only [samples]
        omega
      simp only [dma, hend, decide_true, Bool.or_true]
    have hisr' : (dma line s).isr = .idle := hisr
    simp only [Phase, hisr', hpending, if_true]
    refine ⟨?_, hloop⟩
    change s.read + 512 = 512 * (h + 1)
    omega

/-- In time, everything has been read before the last byte of the next half. -/
theorem read_of_timely (hinv : Inv line s h) (hok : Timely s .dma) (hlast : s.received % 512 = 511) :
    s.read = 512 * h := by
  have hpos := hinv.pos
  have hread : s.read = samples / 2 * halves s := hok (by simp only [samples]; omega)
  rw [hread, ← hinv.halves]
  rfl

theorem inv_dma (hinv : Inv line s h) (hok : Timely s .dma) : ∃ h', Inv line (dma line s) h' := by
  by_cases hlast : s.received % 512 = 511
  · exact ⟨h + 1, inv_dma_last hinv hlast (read_of_timely hinv hok hlast)⟩
  · exact ⟨h, inv_dma_within hinv hlast⟩

/-! ### The handler -/

theorem inv_isr (hinv : Inv line s h) (hok : Undisturbed s .isr) : Inv line (isr s) h := by
  have hphase := hinv.phase
  unfold Phase at hphase
  unfold isr
  split
  · next hisr =>
    split
    · next hpending =>
      rw [hisr] at hphase
      simp only [hpending, if_true] at hphase
      obtain ⟨hread, hcheck | hclear⟩ := hphase
      · exact { hinv with phase := ⟨rfl, hread, hcheck⟩ }
      · exact absurd hclear (hok hisr hpending)
    · exact hinv
  · next hisr =>
    rw [hisr] at hphase
    obtain ⟨hpending, hread, hloop, hdest⟩ := hphase
    have hhalves := hinv.halves
    have hpos := hinv.pos
    refine { hinv with phase := ⟨hpending, hread, hloop, hdest, ?_⟩ }
    by_cases hfirst : s.pos < samples / 2
    · rw [if_pos hfirst]
      simp only [samples] at hfirst ⊢
      omega
    · rw [if_neg hfirst]
      simp only [samples] at hfirst
      omega
  · next half hisr =>
    rw [hisr] at hphase
    obtain ⟨hpending, hread, hloop, hdest, rfl⟩ := hphase
    refine { hinv with phase := ?_ }
    simp only [Phase, hpending, hloop, Bool.false_eq_true, if_false]
    exact .inr ⟨hread, trivial⟩

/-! ### `loop()` -/

/-- A half is printed only while no other one is pending. -/
theorem not_pending_of_dest (hphase : Phase s h) (hisr : s.isr = .idle) {half : ℕ}
    (hdest : s.dest = some half) (hloop : s.loop ≠ .clear) : s.pending = false := by
  by_contra hpending
  rw [Bool.not_eq_false] at hpending
  simp only [Phase, hisr, hpending, if_true] at hphase
  rcases hphase with ⟨-, ⟨-, hnone⟩ | hclear⟩
  · exact absurd (hnone.symm.trans hdest) (by simp)
  · exact hloop hclear

/-- A byte is printed. -/
theorem inv_print (hinv : Inv line s h) (hisr : s.isr = .idle) {i half : ℕ} (hloop : s.loop = .print i)
    (hdest : s.dest = some half) :
    Inv line
      { s with
        printed := s.printed ++ [s.buffer (half + i)]
        read := s.read + 1
        loop := if i + 1 < samples / 2 then .print (i + 1) else .clear } h := by
  have hpending := not_pending_of_dest hinv.phase hisr hdest (by rw [hloop]; simp)
  have hphase := hinv.phase
  simp only [Phase, hisr, hpending, hloop, Bool.false_eq_true, if_false] at hphase
  obtain ⟨hi, hread, hhalf⟩ := hphase
  obtain rfl := Option.some.inj (hdest.symm.trans hhalf)
  obtain ⟨b, rfl⟩ : ∃ b, h = b + 1 := ⟨h - 1, by omega⟩
  have hbyte : s.buffer (512 * ((b + 1 + 1) % 2) + i) = line s.read := by
    have hholds := hinv.last b rfl i hi
    rw [show (b + 1 + 1) % 2 = b % 2 by omega, hholds]
    congr 1
    omega
  refine { hinv with printed := ?_, phase := ?_ }
  · change s.printed ++ [_] = (List.range (s.read + 1)).map line
    rw [hinv.printed, hbyte, List.range_succ, List.map_append]
    rfl
  · by_cases hmore : i + 1 < samples / 2
    · simp only [Phase, hisr, hpending, hmore, Bool.false_eq_true, if_false, if_true]
      refine ⟨hmore, ?_, hdest⟩
      omega
    · simp only [Phase, hisr, hpending, hmore, Bool.false_eq_true, if_false]
      simp only [samples] at hmore
      omega

theorem inv_clear (hinv : Inv line s h) (hisr : s.isr = .idle) (hloop : s.loop = .clear) :
    Inv line { s with dest := none, loop := .check } h := by
  have hphase := hinv.phase
  simp only [Phase, hisr, hloop] at hphase
  refine { hinv with phase := ?_ }
  simp only [Phase, hisr]
  cases hpending : s.pending with
  | true =>
    simp only [hpending, if_true] at hphase
    exact ⟨hphase.1, .inl ⟨trivial, trivial⟩⟩
  | false =>
    simp only [hpending, Bool.false_eq_true, if_false] at hphase
    exact .inl ⟨hphase, trivial⟩

theorem inv_loop (hinv : Inv line s h) : Inv line (loop s) h := by
  unfold loop
  split
  · exact hinv
  next hrun =>
  have hisr : s.isr = .idle := not_not.1 hrun
  split
  · exact hinv
  · next half hloop hdest =>
    have hpending := not_pending_of_dest hinv.phase hisr hdest (by rw [hloop]; simp)
    have hphase := hinv.phase
    simp only [Phase, hisr, hpending, hloop, Bool.false_eq_true, if_false] at hphase
    refine { hinv with phase := ?_ }
    simp only [Phase, hisr, hpending, Bool.false_eq_true, if_false]
    rcases hphase with ⟨-, hnone⟩ | ⟨hread, hhalf⟩
    · exact absurd (hnone.symm.trans hdest) (by simp)
    · exact ⟨by norm_num, hread, hhalf⟩
  · next i half hloop hdest => exact inv_print hinv hisr hloop hdest
  · exact hinv
  · next hloop => exact inv_clear hinv hisr hloop

/-- **One step** keeps the invariant. -/
theorem inv_step (s : State) (e : Event) (hinv : ∃ h, Inv line s h) (hok : Orderly s e) :
    ∃ h, Inv line (step line s e) h := by
  obtain ⟨h, hinv⟩ := hinv
  cases e with
  | dma => exact inv_dma hinv hok.1
  | isr => exact ⟨h, inv_isr hinv hok.2⟩
  | loop => exact ⟨h, inv_loop hinv⟩

theorem read_le (hphase : Phase s h) : s.read ≤ 512 * h := by
  unfold Phase at hphase
  split at hphase
  · split at hphase
    · omega
    · split at hphase
      · omega
      · omega
      · omega
  · omega
  · omega

theorem completed_eq (hinv : Inv line s h) : completed line s = (List.range (512 * h)).map line := by
  rw [completed, halves, ← hinv.halves]
  rfl

theorem map_range_mono {k l : ℕ} (hkl : k ≤ l) :
    (List.range k).map line <+: (List.range l).map line := by
  obtain ⟨m, rfl⟩ := Nat.exists_eq_add_of_le hkl
  rw [List.range_add, List.map_append]
  exact List.prefix_append _ _

/-! ### Progress -/

/-- What is left to be done until the last half has been printed. -/
def rank (s : State) : ℕ :=
  match s.isr with
  | .idle =>
    if s.pending then if s.loop = .clear then 518 else 517
    else
      match s.loop with
      | .check => 513
      | .print i => 512 - i
      | .clear => 0
  | .readDaddr => 516
  | .store _ => 515

/-- Who is to do the next of it. -/
def due (s : State) : Event :=
  if s.isr = .idle ∧ (s.pending = false ∨ s.loop = .clear) then .loop else .isr

theorem rank_dma (hinv : Inv line s h) (hless : s.read < 512 * h) (hok : Timely s .dma) :
    Inv line (dma line s) h ∧ rank (dma line s) = rank s ∧ due (dma line s) = due s := by
  have hwithin : s.received % 512 ≠ 511 := fun hlast =>
    hless.ne (read_of_timely hinv hok hlast)
  have hpending := pending_dma hinv hwithin
  refine ⟨inv_dma_within hinv hwithin, ?_, ?_⟩
  · unfold rank
    rw [hpending]
    rfl
  · unfold due
    rw [hpending]
    rfl

theorem due_idle (hisr : s.isr = .idle) :
    due s = .loop ∧ (s.pending = false ∨ s.loop = .clear) ∨
      due s = .isr ∧ s.pending = true ∧ s.loop ≠ .clear := by
  by_cases hfree : s.pending = false ∨ s.loop = .clear
  · exact .inl ⟨if_pos ⟨hisr, hfree⟩, hfree⟩
  · refine .inr ⟨if_neg fun hboth => hfree hboth.2, ?_, fun hclear => hfree (.inr hclear)⟩
    exact Bool.eq_true_of_not_eq_false fun hfalse => hfree (.inl hfalse)

theorem due_running (hisr : s.isr ≠ .idle) : due s = .isr := if_neg fun hboth => hisr hboth.1

/-- A step of the handler is one of what is left, or it does nothing. -/
theorem rank_isr (hinv : Inv line s h) (hok : Undisturbed s .isr) :
    due s = .isr ∧ rank (isr s) < rank s ∨ due s ≠ .isr ∧ isr s = s := by
  cases hisr : s.isr with
  | idle =>
    obtain ⟨hdue, hfree⟩ | ⟨hdue, hpending, hclear⟩ := due_idle hisr
    · have hpending : s.pending = false :=
        hfree.elim id fun hclear => Bool.eq_false_iff.2 fun hpending => hok hisr hpending hclear
      right
      refine ⟨by rw [hdue]; simp, ?_⟩
      simp [isr, hisr, hpending]
    · left
      refine ⟨hdue, ?_⟩
      simp [rank, isr, hisr, hpending, hclear]
  | readDaddr =>
    left
    refine ⟨due_running (by rw [hisr]; simp), ?_⟩
    simp [rank, isr, hisr]
  | store half =>
    have hphase := hinv.phase
    simp only [Phase, hisr] at hphase
    obtain ⟨hpending, -, hloop, -⟩ := hphase
    left
    refine ⟨due_running (by rw [hisr]; simp), ?_⟩
    simp [rank, isr, hisr, hpending, hloop]

/-- So is a step of `loop()`. -/
theorem rank_loop (hinv : Inv line s h) (hless : s.read < 512 * h) :
    due s = .loop ∧ rank (loop s) < rank s ∨ due s ≠ .loop ∧ loop s = s := by
  have hphase := hinv.phase
  by_cases hisr : s.isr = .idle
  swap
  · right
    refine ⟨by rw [due_running hisr]; simp, if_pos hisr⟩
  simp only [Phase, hisr] at hphase
  obtain ⟨hdue, hfree⟩ | ⟨hdue, hpending, hclear⟩ := due_idle hisr
  · left
    refine ⟨hdue, ?_⟩
    cases hpending : s.pending with
    | true =>
      have hclear : s.loop = .clear := hfree.resolve_left (by simp [hpending])
      simp [rank, loop, hisr, hpending, hclear]
    | false =>
      simp only [hpending, Bool.false_eq_true, if_false] at hphase
      cases hloop : s.loop with
      | check =>
        simp only [hloop] at hphase
        obtain ⟨-, hdest⟩ := hphase.resolve_left fun hall => hless.ne hall.1
        simp [rank, loop, hisr, hpending, hloop, hdest]
      | print i =>
        simp only [hloop] at hphase
        obtain ⟨hi, -, hdest⟩ := hphase
        have hrank : rank s = 512 - i := by
          simp [rank, hisr, hpending, hloop]
        by_cases hmore : i + 1 < samples / 2
        · have hnext : rank (loop s) = 512 - (i + 1) := by
            simp [rank, loop, hisr, hpending, hloop, hdest, hmore]
          omega
        · have hnext : rank (loop s) = 0 := by
            simp [rank, loop, hisr, hpending, hloop, hdest, hmore]
          omega
      | clear =>
        simp only [hloop] at hphase
        exact absurd hphase hless.ne
  · right
    simp only [hpending, if_true] at hphase
    obtain ⟨hcheck, hdest⟩ := hphase.2.resolve_right hclear
    refine ⟨by rw [hdue]; simp, ?_⟩
    simp [loop, hisr, hcheck, hdest]

/-- **Progress.** While the last half has not been printed, the step that is due leaves less to be
done, and no other one makes a difference. -/
theorem rank_step {e : Event} (hinv : Inv line s h) (hless : s.read < 512 * h) (hok : Orderly s e) :
    Inv line (step line s e) h ∧ (e = due s ∧ rank (step line s e) < rank s ∨
      e ≠ due s ∧ rank (step line s e) = rank s ∧ due (step line s e) = due s) := by
  cases e with
  | dma =>
    obtain ⟨hinv', hsame⟩ := rank_dma hinv hless hok.1
    have hdue : Event.dma ≠ due s := by
      unfold due
      split <;> simp
    exact ⟨hinv', .inr ⟨hdue, hsame⟩⟩
  | isr =>
    refine ⟨inv_isr hinv hok.2, ?_⟩
    change _ ∧ rank (isr s) < _ ∨ _ ∧ rank (isr s) = _ ∧ due (isr s) = _
    obtain ⟨hdue, hlt⟩ | ⟨hdue, hsame⟩ := rank_isr hinv hok.2
    · exact .inl ⟨hdue.symm, hlt⟩
    · rw [hsame]
      exact .inr ⟨hdue.symm, rfl, rfl⟩
  | loop =>
    refine ⟨inv_loop hinv, ?_⟩
    change _ ∧ rank (loop s) < _ ∨ _ ∧ rank (loop s) = _ ∧ due (loop s) = _
    obtain ⟨hdue, hlt⟩ | ⟨hdue, hsame⟩ := rank_loop hinv hless
    · exact .inl ⟨hdue.symm, hlt⟩
    · rw [hsame]
      exact .inr ⟨hdue.symm, rfl, rfl⟩

theorem read_step (line : ℕ → Byte) (s : State) (e : Event) : s.read ≤ (step line s e).read := by
  cases e with
  | dma => exact le_rfl
  | isr =>
    change s.read ≤ (isr s).read
    unfold isr
    split
    · split
      · exact le_rfl
      · exact le_rfl
    · exact le_rfl
    · exact le_rfl
  | loop =>
    change s.read ≤ (loop s).read
    unfold loop
    split
    · exact le_rfl
    · split
      · exact le_rfl
      · exact le_rfl
      · exact Nat.le_succ _
      · exact le_rfl
      · exact le_rfl

theorem due_of_fair {events : ℕ → Event} (hfair : Fair events) (s : State) (n : ℕ) :
    ∃ m, n ≤ m ∧ events m = due s := by
  unfold due
  split
  · exact hfair.loop n
  · exact hfair.isr n

/-- Every half that is complete is printed. -/
theorem read_reaches {events : ℕ → Event} {start : State} (hfair : Fair events)
    (hok : ∀ n, Orderly (trace (step line) start events n) (events n)) {n : ℕ}
    (hinv : Inv line (trace (step line) start events n) h) :
    ∃ m, n ≤ m ∧ 512 * h ≤ (trace (step line) start events m).read := by
  set t := trace (step line) start events with ht
  -- the number of halves stays the same until then
  have hkept : ∀ m, n ≤ m → Inv line (t m) h ∨ 512 * h ≤ (t m).read := by
    intro m hm
    induction m, hm using Nat.le_induction with
    | base => exact .inl hinv
    | succ m _ ih =>
      rcases Nat.lt_or_ge (t m).read (512 * h) with hless | hge
      · exact .inl (rank_step (ih.resolve_right (not_le.2 hless)) hless (hok m)).1
      · exact .inr (hge.trans (read_step line (t m) (events m)))
  refine trace_reaches (G := fun s => 512 * h ≤ s.read) rank fun m hm hnot => ?_
  have hinvm := (hkept m hm).resolve_right hnot
  refine trace_until_along (C := Orderly) (E := fun _ e => e = due (t m)) hok
    (Q := fun s => Inv line s h ∧ s.read < 512 * h ∧ rank s = rank (t m) ∧ due s = due (t m))
    (G := fun s => 512 * h ≤ s.read ∨ rank s < rank (t m)) ?_ ?_
    ⟨hinvm, not_le.1 hnot, rfl, rfl⟩ (due_of_fair hfair (t m) m)
  · rintro s e ⟨hinvs, hless, hrank, hdue⟩ hokse
    obtain ⟨hinv', ⟨-, hlt⟩ | ⟨-, hrank', hdue'⟩⟩ := rank_step hinvs hless hokse
    · exact .inr (.inr (by rwa [← hrank]))
    · rcases Nat.lt_or_ge (step line s e).read (512 * h) with hless' | hge
      · exact .inl ⟨hinv', hless', hrank'.trans hrank, hdue'.trans hdue⟩
      · exact .inr (.inl hge)
  · rintro s e ⟨hinvs, hless, hrank, hdue⟩ hokse rfl
    obtain ⟨-, ⟨-, hlt⟩ | ⟨hne, -⟩⟩ := rank_step hinvs hless hokse
    · exact .inr (by rwa [← hrank])
    · exact absurd hdue.symm hne

/-- **The halves are printed.** Whatever the line sends, in every orderly run the bytes that have been
printed are the first ones of the halves that are complete; and when the handler and `loop()` go on,
all bytes of a half that is complete are printed at some time. -/
theorem uart_prints_halves (line buffer : ℕ → Byte) :
    (∀ es, Along (step line) Orderly { buffer } es →
      (run (step line) { buffer } es).printed <+: completed line (run (step line) { buffer } es)) ∧
    ∀ events, Fair events → (∀ n, Orderly (trace (step line) { buffer } events n) (events n)) →
      ∀ n, ∃ m, n ≤ m ∧ completed line (trace (step line) { buffer } events n) <+:
        (trace (step line) { buffer } events m).printed := by
  constructor
  · intro es hes
    obtain ⟨h, hinv⟩ := along_induction inv_step ⟨0, inv_start line buffer⟩ hes
    rw [completed_eq hinv, hinv.printed]
    exact map_range_mono (read_le hinv.phase)
  · intro events hfair hok n
    have hinvs := trace_induction inv_step ⟨0, inv_start line buffer⟩ hok
    obtain ⟨h, hinv⟩ := hinvs n
    obtain ⟨m, hm, hread⟩ := read_reaches hfair hok hinv
    obtain ⟨h', hinv'⟩ := hinvs m
    refine ⟨m, hm, ?_⟩
    rw [completed_eq hinv, hinv'.printed]
    exact map_range_mono hread

/-! ### Two runs -/

/-- Some events, and then the handler and `loop()` for ever. -/
def thenIdle (es : List Event) (n : ℕ) : Event := es[n]?.getD (if n % 2 = 0 then .isr else .loop)

theorem thenIdle_of_ge {es : List Event} {n : ℕ} (hn : es.length ≤ n) :
    thenIdle es n = if n % 2 = 0 then .isr else .loop := by
  rw [thenIdle, List.getElem?_eq_none hn]
  rfl

theorem fair_thenIdle (es : List Event) : Fair (thenIdle es) := by
  constructor
  · intro n
    refine ⟨2 * (n + es.length), by omega, ?_⟩
    rw [thenIdle_of_ge (by omega), if_pos (by omega)]
  · intro n
    refine ⟨2 * (n + es.length) + 1, by omega, ?_⟩
    rw [thenIdle_of_ge (by omega), if_neg (by omega)]

theorem map_thenIdle (es : List Event) : (List.range es.length).map (thenIdle es) = es := by
  refine List.ext_getElem (by simp) fun n hn hn' => ?_
  simp [thenIdle, hn']

/-- `loop()` waits for the next interrupt. -/
def Waiting (s : State) : Prop :=
  s.isr = .idle ∧ s.pending = false ∧ s.loop = .check ∧ s.dest = none

instance (s : State) : Decidable (Waiting s) :=
  inferInstanceAs (Decidable (s.isr = .idle ∧ s.pending = false ∧ s.loop = .check ∧ s.dest = none))

theorem step_of_waiting (hwaiting : Waiting s) {e : Event} (he : e ≠ .dma) : step line s e = s := by
  obtain ⟨hisr, hpending, hloop, hdest⟩ := hwaiting
  cases e with
  | dma => exact absurd rfl he
  | isr => simp [step, isr, hisr, hpending]
  | loop => simp [step, loop, hisr, hloop, hdest]

section ThenIdle

variable {start : State} {es : List Event}

theorem trace_of_waiting (hwaiting : Waiting (run (step line) start es)) {n : ℕ} (hn : es.length ≤ n) :
    trace (step line) start (thenIdle es) n = run (step line) start es := by
  induction n, hn using Nat.le_induction with
  | base => rw [← run_map_range, map_thenIdle]
  | succ n hn ih =>
    rw [trace_succ, ih]
    refine step_of_waiting hwaiting ?_
    rw [thenIdle_of_ge hn]
    split <;> simp

/-- A condition that such events meet. -/
theorem meets_thenIdle {C : State → Event → Prop} (hes : Along (step line) C start es)
    (hwaiting : Waiting (run (step line) start es))
    (hisr : C (run (step line) start es) .isr) (hloop : C (run (step line) start es) .loop) (n : ℕ) :
    C (trace (step line) start (thenIdle es) n) (thenIdle es n) := by
  rcases Nat.lt_or_ge n es.length with hlt | hge
  · rw [← map_thenIdle es] at hes
    exact along_map_range.1 hes n hlt
  · rw [trace_of_waiting hwaiting hge, thenIdle_of_ge hge]
    split
    · exact hisr
    · exact hloop

end ThenIdle

/-- A half, and the first byte of the next one while it is printed. -/
def oneHalf : List Event :=
  List.replicate 512 .dma ++ List.replicate 3 .isr ++ List.replicate 256 .loop ++ [.dma] ++
    List.replicate 258 .loop

theorem uart_prints_halves_oneHalf :
    (run (step (BitVec.ofNat 8)) { buffer := fun _ => 0#8 } oneHalf).read = 512 ∧
      (run (step (BitVec.ofNat 8)) { buffer := fun _ => 0#8 } oneHalf).printed <+:
        completed (BitVec.ofNat 8) (run (step (BitVec.ofNat 8)) { buffer := fun _ => 0#8 } oneHalf) ∧
      ∀ n, ∃ m, n ≤ m ∧
        completed (BitVec.ofNat 8)
          (trace (step (BitVec.ofNat 8)) { buffer := fun _ => 0#8 } (thenIdle oneHalf) n) <+:
        (trace (step (BitVec.ofNat 8)) { buffer := fun _ => 0#8 } (thenIdle oneHalf) m).printed := by
  have horderly : Along (step (BitVec.ofNat 8)) Orderly { buffer := fun _ => 0#8 } oneHalf := by
    decide +kernel
  have hwaiting : Waiting (run (step (BitVec.ofNat 8)) { buffer := fun _ => 0#8 } oneHalf) := by
    decide +kernel
  have hread : (run (step (BitVec.ofNat 8)) { buffer := fun _ => 0#8 } oneHalf).read = 512 := by
    decide +kernel
  obtain ⟨hfinite, hendless⟩ := uart_prints_halves (BitVec.ofNat 8) fun _ => 0#8
  refine ⟨hread, hfinite oneHalf horderly, hendless _ (fair_thenIdle oneHalf) ?_⟩
  refine meets_thenIdle horderly hwaiting ⟨trivial, fun _ hpending => ?_⟩ ⟨trivial, trivial⟩
  exact absurd (hwaiting.2.1.symm.trans hpending) (by simp)

theorem length_printed_step (line : ℕ → Byte) (s : State) (e : Event)
    (hlength : s.printed.length = s.read) :
    (step line s e).printed.length = (step line s e).read := by
  cases e with
  | dma => exact hlength
  | isr =>
    change (isr s).printed.length = (isr s).read
    unfold isr
    split
    · split
      · exact hlength
      · exact hlength
    · exact hlength
    · exact hlength
  | loop =>
    change (loop s).printed.length = (loop s).read
    unfold loop
    split
    · exact hlength
    · split
      · exact hlength
      · exact hlength
      · rw [List.length_append, hlength]
        rfl
      · exact hlength
      · exact hlength

/-- The second half is complete before `dest = 0`, and its interrupt is taken before it, too. -/
def lostHalf : List Event :=
  List.replicate 512 .dma ++ List.replicate 3 .isr ++ List.replicate 513 .loop ++
    List.replicate 512 .dma ++ List.replicate 3 .isr ++ [.loop]

/-- The first half has been read in time, but the second one is never printed. -/
theorem second_half_is_lost :
    Fair (thenIdle lostHalf) ∧
      (∀ n, Timely (trace (step (BitVec.ofNat 8)) { buffer := fun _ => 0#8 } (thenIdle lostHalf) n)
        (thenIdle lostHalf n)) ∧
      ¬ ∀ n, ∃ m, n ≤ m ∧
        completed (BitVec.ofNat 8)
          (trace (step (BitVec.ofNat 8)) { buffer := fun _ => 0#8 } (thenIdle lostHalf) n) <+:
        (trace (step (BitVec.ofNat 8)) { buffer := fun _ => 0#8 } (thenIdle lostHalf) m).printed := by
  have htimely : Along (step (BitVec.ofNat 8)) Timely { buffer := fun _ => 0#8 } lostHalf := by
    decide +kernel
  have hwaiting : Waiting (run (step (BitVec.ofNat 8)) { buffer := fun _ => 0#8 } lostHalf) := by
    decide +kernel
  have hread : (run (step (BitVec.ofNat 8)) { buffer := fun _ => 0#8 } lostHalf).read = 512 := by
    decide +kernel
  have hhalves : halves (run (step (BitVec.ofNat 8)) { buffer := fun _ => 0#8 } lostHalf) = 2 := by
    decide +kernel
  refine ⟨fair_thenIdle lostHalf, meets_thenIdle htimely hwaiting trivial trivial, fun hall => ?_⟩
  obtain ⟨m, hm, hprinted⟩ := hall lostHalf.length
  have hlength := hprinted.length_le
  rw [trace_of_waiting hwaiting hm, trace_of_waiting hwaiting le_rfl, completed, hhalves,
    run_induction (length_printed_step (BitVec.ofNat 8)) rfl lostHalf, hread] at hlength
  simp [samples] at hlength

end UartDma
