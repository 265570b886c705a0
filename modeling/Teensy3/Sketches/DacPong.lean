import Mathlib.Tactic
import Teensy3.Lib.Run

/-!
# Playing a table with two half buffers

`dacpong.ino` sends a table of 512 samples to the DAC again and again.  The DMA channel goes through
a buffer of 256 samples in a circle, with an interrupt after each half, and the handler fills the half
that has just been sent with the next 128 samples of the table.  It finds out which half this is from
the address at which the DMA is.

* `State`, `step`: the DMA and the handler, with the samples that the handler copies one by one;
* `setup`: the state in which the DMA is started;
* `InTime`: the handler is done before the DMA is with the half that follows its interrupt;
* `Inv`: the invariant, in which `blocks` is the number of blocks of the table that have been copied;
* `Plays`: what the sketch is for.
-/

namespace DacPong

open Machine

abbrev Sample := BitVec 16

/-- `SAMPLES` -/
def samples : ℕ := 128

/-- `RAW_SIZE` -/
def rawSize : ℕ := 4 * samples

/-- `sizeof(dac_buffer)` -/
def bufferBytes : ℕ := 2 * samples * 2

/-- Where the handler is. -/
inductive Isr
  | idle
  /-- `dma.clearInterrupt()` -/
  | clear (dest : ℕ)
  /-- the `memcpy` of `next_sample`, before it copies sample `j` -/
  | copy (dest j : ℕ)
  /-- `raw_idx += SAMPLES; if (raw_idx >= RAW_SIZE) raw_idx = 0;` -/
  | advance
  deriving DecidableEq, Repr

/-- The DMA channel is at the sample `pos` of the buffer, `pending` is its interrupt, and `sent` are
all samples that have been sent to the DAC. -/
structure State where
  buffer : ℕ → Sample
  pos : ℕ
  pending : Bool
  sent : List Sample
  isr : Isr
  rawIdx : ℕ

/-- `raw_idx` after a block. -/
def advanced (rawIdx : ℕ) : ℕ := if rawSize ≤ rawIdx + samples then 0 else rawIdx + samples

/-- One sample of the `memcpy`. -/
def copied (raw buffer : ℕ → Sample) (rawIdx dest j : ℕ) : ℕ → Sample :=
  Function.update buffer (dest + j) (raw (rawIdx + j))

/-- The whole `memcpy`. -/
def copyBlock (raw buffer : ℕ → Sample) (rawIdx dest : ℕ) : ℕ → Sample :=
  (List.range samples).foldl (fun b j => copied raw b rawIdx dest j) buffer

/-- `next_sample`, before the DMA runs. -/
def nextSample (raw : ℕ → Sample) (s : State) (dest : ℕ) : State :=
  { s with buffer := copyBlock raw s.buffer s.rawIdx dest, rawIdx := advanced s.rawIdx }

/-- The end of `setup`: both halves have been filled, and the DMA is at the start of the buffer. -/
def setup (raw buffer : ℕ → Sample) : State :=
  nextSample raw (nextSample raw ⟨buffer, 0, false, [], .idle, 0⟩ 0) samples

/-- The DMA sends one sample; there is an interrupt after each half. -/
def dma (s : State) : State :=
  { s with
    sent := s.sent ++ [s.buffer s.pos]
    pos := if s.pos + 1 = 2 * samples then 0 else s.pos + 1
    pending := s.pending || decide (s.pos + 1 = samples ∨ s.pos + 1 = 2 * samples) }

/-- The next access of `isr`. -/
def isr (raw : ℕ → Sample) (s : State) : State :=
  match s.isr with
  | .idle =>
    if s.pending then
      -- `saddr` is `2 * pos` bytes behind `dac_buffer`
      { s with isr := .clear (if 2 * s.pos < bufferBytes / 2 then samples else 0) }
    else s
  | .clear dest => { s with pending := false, isr := .copy dest 0 }
  | .copy dest j =>
    if j < samples then
      { s with buffer := copied raw s.buffer s.rawIdx dest j, isr := .copy dest (j + 1) }
    else { s with isr := .advance }
  | .advance => { s with rawIdx := advanced s.rawIdx, isr := .idle }

inductive Event
  | dma
  | isr
  deriving DecidableEq, Repr

def step (raw : ℕ → Sample) (s : State) : Event → State
  | .dma => dma s
  | .isr => isr raw s

/-- The last sample of a half is not sent before the handler is done. -/
def InTime (s : State) : Event → Prop
  | .dma => s.pos + 1 = samples ∨ s.pos + 1 = 2 * samples → s.isr = .idle ∧ s.pending = false
  | .isr => True

instance (s : State) : ∀ e, Decidable (InTime s e)
  | .dma => inferInstanceAs (Decidable
      (s.pos + 1 = samples ∨ s.pos + 1 = 2 * samples → s.isr = .idle ∧ s.pending = false))
  | .isr => inferInstanceAs (Decidable True)

/-- Sample `n` is the one of the table; the handler writes to the half in which the DMA is not;
`raw_idx` is at a block of the table, and this block is inside. -/
structure Plays (raw : ℕ → Sample) (s : State) : Prop where
  sent : ∀ n (hn : n < s.sent.length), s.sent[n] = raw (n % rawSize)
  other : ∀ dest j, s.isr = .copy dest j → j < samples →
    dest + j < 2 * samples ∧ (dest + j) / samples ≠ s.pos / samples
  rawIdx : samples ∣ s.rawIdx ∧ s.rawIdx < rawSize
  inside : s.rawIdx + samples ≤ rawSize

/-! ### Blocks -/

/-- The half buffer of block `b` of the stream has its samples. -/
def Holds (raw buffer : ℕ → Sample) (b : ℕ) : Prop :=
  ∀ j < 128, buffer (128 * (b % 2) + j) = raw (128 * (b % 4) + j)

/-- Block `b` is copied from here, and to here. -/
theorem advanced_block (b : ℕ) : advanced (128 * (b % 4)) = 128 * ((b + 1) % 4) := by
  rw [advanced]
  by_cases h : rawSize ≤ 128 * (b % 4) + samples
  · rw [if_pos h]
    simp only [rawSize, samples] at h
    omega
  · rw [if_neg h]
    simp only [rawSize, samples] at h ⊢
    omega

theorem copied_apply (raw buffer : ℕ → Sample) (rawIdx dest j i : ℕ) :
    copied raw buffer rawIdx dest j i = if i = dest + j then raw (rawIdx + j) else buffer i := by
  rw [copied, Function.update_apply]

theorem copyBlock_apply (raw buffer : ℕ → Sample) (rawIdx dest i : ℕ) :
    copyBlock raw buffer rawIdx dest i =
      if dest ≤ i ∧ i < dest + 128 then raw (rawIdx + (i - dest)) else buffer i := by
  have hfold : ∀ n, (List.range n).foldl (fun b j => copied raw b rawIdx dest j) buffer i =
      if dest ≤ i ∧ i < dest + n then raw (rawIdx + (i - dest)) else buffer i := by
    intro n
    induction n with
    | zero => simp
    | succ n ih =>
      rw [List.range_succ, List.foldl_append, List.foldl_cons, List.foldl_nil, copied_apply, ih]
      by_cases hi : i = dest + n
      · rw [if_pos hi, if_pos ⟨by omega, by omega⟩, hi, Nat.add_sub_cancel_left]
      · rw [if_neg hi]
        exact if_congr (by omega) rfl rfl
  exact hfold 128

/-! ### The invariant -/

/-- What is ready while block `b` is being sent: when the handler is done, the next one is in the
other half. -/
def Ready (raw : ℕ → Sample) (s : State) (b : ℕ) : Prop :=
  match s.isr with
  | .idle => if s.pending then s.rawIdx = 128 * ((b + 1) % 4)
      else s.rawIdx = 128 * ((b + 2) % 4) ∧ Holds raw s.buffer (b + 1)
  | .clear dest => s.rawIdx = 128 * ((b + 1) % 4) ∧ dest = 128 * ((b + 1) % 2)
  | .copy dest j => s.rawIdx = 128 * ((b + 1) % 4) ∧ dest = 128 * ((b + 1) % 2) ∧
      s.pending = false ∧ j ≤ 128 ∧ ∀ i < j, s.buffer (dest + i) = raw (s.rawIdx + i)
  | .advance => s.rawIdx = 128 * ((b + 1) % 4) ∧ s.pending = false ∧ Holds raw s.buffer (b + 1)

/-- **The invariant**, while block `b` is being sent. -/
structure Inv (raw : ℕ → Sample) (s : State) (b : ℕ) : Prop where
  block : s.sent.length / 128 = b
  pos : s.pos = s.sent.length % 256
  sent : ∀ n (hn : n < s.sent.length), s.sent[n] = raw (n % 512)
  current : Holds raw s.buffer b
  ready : Ready raw s b

variable {raw : ℕ → Sample} {s : State} {b : ℕ}

theorem inv_setup (raw buffer : ℕ → Sample) : Inv raw (setup raw buffer) 0 := by
  have hfirst : Holds raw (setup raw buffer).buffer 0 := by
    intro j hj
    simp only [setup, nextSample, copyBlock_apply, samples]
    rw [if_neg (by omega), if_pos (by omega)]
    congr 1
    omega
  have hsecond : Holds raw (setup raw buffer).buffer 1 := by
    intro j hj
    have hidx : advanced 0 = 128 := rfl
    have hj' : 128 + j - 128 = j := Nat.add_sub_cancel_left 128 j
    change (setup raw buffer).buffer (128 + j) = raw (128 + j)
    simp only [setup, nextSample, copyBlock_apply, samples, hidx]
    rw [if_pos (by omega), hj']
  have hsent : (setup raw buffer).sent = [] := rfl
  refine ⟨by rw [hsent]; rfl, by rw [hsent]; rfl, ?_, hfirst, rfl, hsecond⟩
  intro n hn
  rw [hsent] at hn
  cases hn

/-- The sample that is sent next. -/
theorem buffer_pos (h : Inv raw s b) : s.buffer s.pos = raw (s.sent.length % 512) := by
  have hblock := h.block
  have hlt : s.sent.length % 128 < 128 := Nat.mod_lt _ (by norm_num)
  have hpos : s.pos = 128 * (b % 2) + s.sent.length % 128 := by
    rw [h.pos]
    omega
  have hraw : s.sent.length % 512 = 128 * (b % 4) + s.sent.length % 128 := by
    omega
  rw [hpos, hraw]
  exact h.current _ hlt

theorem sent_dma (h : Inv raw s b) :
    ∀ n (hn : n < (dma s).sent.length), (dma s).sent[n] = raw (n % 512) := by
  intro n hn
  simp only [dma, List.getElem_append]
  split
  · next hold => exact h.sent n hold
  · next hnew =>
    have hn' : n = s.sent.length := by
      simp only [dma, List.length_append, List.length_singleton] at hn
      omega
    simp only [List.getElem_singleton, hn']
    exact buffer_pos h

/-- **The DMA** goes on in its block, or it goes on with the one that is ready. -/
theorem inv_dma (h : Inv raw s b) (hok : InTime s .dma) : ∃ b', Inv raw (dma s) b' := by
  have hblock := h.block
  have hpos := h.pos
  have hlength : (dma s).sent.length = s.sent.length + 1 := by
    simp [dma]
  have hnext : (dma s).pos = (s.sent.length + 1) % 256 := by
    change (if s.pos + 1 = 2 * samples then 0 else s.pos + 1) = _
    by_cases hlast : s.pos + 1 = 2 * samples
    · rw [if_pos hlast]
      simp only [samples] at hlast
      omega
    · rw [if_neg hlast]
      simp only [samples] at hlast
      omega
  by_cases hend : s.pos + 1 = samples ∨ s.pos + 1 = 2 * samples
  · obtain ⟨hidle, hpending⟩ := hok hend
    have hready := h.ready
    simp only [Ready, hidle, hpending, Bool.false_eq_true, if_false] at hready
    refine ⟨b + 1, ?_, ?_, sent_dma h, hready.2, ?_⟩
    · rw [hlength]
      simp only [samples] at hend
      omega
    · rw [hlength]
      exact hnext
    · simp only [Ready, dma, hidle, hend, decide_true, Bool.or_true, if_true]
      exact hready.1
  · have hpend : (dma s).pending = s.pending := by
      simp [dma, hend]
    refine ⟨b, ?_, ?_, sent_dma h, h.current, ?_⟩
    · rw [hlength]
      simp only [samples] at hend
      omega
    · rw [hlength]
      exact hnext
    · have hready := h.ready
      unfold Ready at hready ⊢
      rw [hpend]
      exact hready

/-- Writing to one half leaves the other one alone. -/
theorem holds_copied {buffer : ℕ → Sample} (h : Holds raw buffer b) {rawIdx j : ℕ} (hj : j < 128) :
    Holds raw (copied raw buffer rawIdx (128 * ((b + 1) % 2)) j) b := by
  intro i hi
  rw [copied_apply, if_neg (by omega)]
  exact h i hi

/-- The half that follows the interrupt is the one in which the DMA is. -/
theorem inv_enter (h : Inv raw s b) (hisr : s.isr = .idle) (hpending : s.pending = true) :
    Inv raw { s with isr := .clear (if 2 * s.pos < bufferBytes / 2 then samples else 0) } b := by
  have hready := h.ready
  have hblock := h.block
  have hpos := h.pos
  simp only [Ready, hisr, hpending, if_true] at hready
  refine { h with ready := ⟨hready, ?_⟩ }
  by_cases hhalf : 2 * s.pos < bufferBytes / 2
  · rw [if_pos hhalf]
    simp only [bufferBytes, samples] at hhalf ⊢
    omega
  · rw [if_neg hhalf]
    simp only [bufferBytes, samples] at hhalf
    omega

theorem inv_copy (h : Inv raw s b) {dest j : ℕ} (hisr : s.isr = .copy dest j) :
    Inv raw (if j < samples then
      { s with buffer := copied raw s.buffer s.rawIdx dest j, isr := .copy dest (j + 1) }
      else { s with isr := .advance }) b := by
  have hready := h.ready
  simp only [Ready, hisr] at hready
  obtain ⟨hidx, rfl, hpending, hj, hdone⟩ := hready
  split
  · next hmore =>
    refine { h with
      current := holds_copied h.current hmore
      ready := ⟨hidx, rfl, hpending, hmore, ?_⟩ }
    intro i hi
    change copied raw s.buffer s.rawIdx _ j _ = raw (s.rawIdx + i)
    rw [copied_apply]
    by_cases hlast : i = j
    · rw [if_pos (by rw [hlast]), hlast]
    · rw [if_neg (by omega)]
      exact hdone i (by omega)
  · next hend =>
    refine { h with ready := ⟨hidx, hpending, fun i hi => ?_⟩ }
    have hall := hdone i (lt_of_lt_of_le hi (not_lt.1 hend))
    rw [hidx] at hall
    exact hall

theorem inv_advance (h : Inv raw s b) (hisr : s.isr = .advance) :
    Inv raw { s with rawIdx := advanced s.rawIdx, isr := .idle } b := by
  have hready := h.ready
  simp only [Ready, hisr] at hready
  obtain ⟨hidx, hpending, hnext⟩ := hready
  refine { h with ready := ?_ }
  simp only [Ready, hpending, Bool.false_eq_true, if_false]
  refine ⟨?_, hnext⟩
  rw [hidx]
  exact advanced_block (b + 1)

/-- **The handler** fills the half in which the DMA is not. -/
theorem inv_isr (h : Inv raw s b) : Inv raw (isr raw s) b := by
  unfold isr
  split
  · next hisr =>
    split
    · next hpending => exact inv_enter h hisr hpending
    · exact h
  · next dest hisr =>
    have hready := h.ready
    simp only [Ready, hisr] at hready
    exact { h with ready := ⟨hready.1, hready.2, rfl, Nat.zero_le _,
      fun i hi => absurd hi (Nat.not_lt_zero i)⟩ }
  · next hisr => exact inv_copy h hisr
  · next hisr => exact inv_advance h hisr

theorem inv_step (s : State) (e : Event) (h : ∃ b, Inv raw s b) (hok : InTime s e) :
    ∃ b, Inv raw (step raw s e) b := by
  obtain ⟨b, h⟩ := h
  cases e with
  | dma => exact inv_dma h hok
  | isr => exact ⟨b, inv_isr h⟩

theorem rawIdx_of_inv (h : Inv raw s b) : ∃ k < 4, s.rawIdx = 128 * k := by
  have hready := h.ready
  have hmod : ∀ n, n % 4 < 4 := fun n => Nat.mod_lt n (by norm_num)
  unfold Ready at hready
  split at hready
  · split at hready
    · exact ⟨_, hmod _, hready⟩
    · exact ⟨_, hmod _, hready.1⟩
  · exact ⟨_, hmod _, hready.1⟩
  · exact ⟨_, hmod _, hready.1⟩
  · exact ⟨_, hmod _, hready.1⟩

theorem plays_of_inv (h : Inv raw s b) : Plays raw s := by
  obtain ⟨k, hk, hidx⟩ := rawIdx_of_inv h
  refine ⟨h.sent, ?_, ?_, ?_⟩
  · intro dest j hisr hj
    have hready := h.ready
    have hblock := h.block
    have hpos := h.pos
    simp only [Ready, hisr] at hready
    obtain ⟨-, rfl, -⟩ := hready
    simp only [samples] at hj ⊢
    omega
  · rw [hidx]
    refine ⟨⟨k, rfl⟩, ?_⟩
    simp only [rawSize, samples]
    omega
  · rw [hidx]
    simp only [rawSize, samples]
    omega

/-- **The table is played.** In every run in which the handler is in time, for any table and whatever
the buffer was before, in every state the samples that have been sent are those of the table, over
and over; the handler writes only to the half in which the DMA is not; and `raw_idx` is at a block of
the table. -/
theorem dac_plays_table (raw buffer : ℕ → Sample) (es : List Event)
    (h : Along (step raw) InTime (setup raw buffer) es) :
    Plays raw (run (step raw) (setup raw buffer) es) := by
  obtain ⟨b, hinv⟩ := along_induction inv_step ⟨0, inv_setup raw buffer⟩ h
  exact plays_of_inv hinv

/-- The events of a whole pass over the buffer, in which the handler runs in the middle of the second
half. -/
def onePass : List Event :=
  List.replicate 192 .dma ++ List.replicate 132 .isr ++ List.replicate 64 .dma

theorem dac_plays_table_onePass :
    (run (step (BitVec.ofNat 16)) (setup (BitVec.ofNat 16) fun _ => 0#16) onePass).sent.length = 256 ∧
      (run (step (BitVec.ofNat 16)) (setup (BitVec.ofNat 16) fun _ => 0#16) onePass).rawIdx = 384 ∧
      Plays (BitVec.ofNat 16)
        (run (step (BitVec.ofNat 16)) (setup (BitVec.ofNat 16) fun _ => 0#16) onePass) :=
  ⟨by decide +kernel, by decide +kernel, dac_plays_table _ _ _ (by decide +kernel)⟩

end DacPong
