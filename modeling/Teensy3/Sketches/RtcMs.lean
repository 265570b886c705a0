import Mathlib.Tactic
import Teensy3.Lib.Counter

/-!
# Milliseconds from the real-time clock

`rtc_ms` of `RTCms.ino` combines the seconds register `RTC_TSR` of the clock with its prescaler
`RTC_TPR`.  The two are read one after the other, each of them until two reads agree, and the seconds
are read again when the prescaler has just started from zero.

* `tsr`, `tpr`: the registers at a tick of the clock;
* `doubleRead`, `rtcMs`: the function; `times k` is the tick of the clock at its read number `k`;
* `Made`: the reads that a call makes;
* `msAt`: the time in milliseconds at a tick;
* `rtcMs_value`: a call has the time of the tick at which it reads the prescaler, and
  `rtcMs_returns`: it returns.
-/

namespace RtcMs

open Counter

abbrev Word := BitVec 32

/-- `RTC_TSR` and `RTC_TPR`, after `t` ticks of 32768 Hz -/
def tsr (t : ℕ) : Word := BitVec.ofNat 32 (t / 32768)

def tpr (t : ℕ) : Word := BitVec.ofNat 32 (t % 32768)

/-- `do { read1 = r; read2 = r; } while (read1 != read2);` with the value and the number of the next
read. -/
def doubleRead (reg : ℕ → Word) (times : ℕ → ℕ) : (fuel k : ℕ) → Option (Word × ℕ)
  | 0, _ => none
  | fuel + 1, k =>
    if reg (times k) = reg (times (k + 1)) then some (reg (times k), k + 2)
    else doubleRead reg times fuel (k + 2)

/-- What a call returns, the number of its reads, and the number of the read of the prescaler whose
value it uses. -/
structure Outcome where
  value : Word
  reads : ℕ
  prescaler : ℕ
  deriving DecidableEq, Repr

/-- `us = (read1*(1000000UL/64)+16384/64)/(32768/64)` -/
def microseconds (read1 : Word) : Word := (read1 * (1000000 / 64) + 16384 / 64) / (32768 / 64)

/-- `rtc_ms` -/
def rtcMs (fuel : ℕ) (times : ℕ → ℕ) : Option Outcome := do
  let (secs, k) ← doubleRead tsr times fuel 0
  let (read1, k) ← doubleRead tpr times fuel k
  let us := microseconds read1
  if us < 100 then
    let (secs, k') ← doubleRead tsr times fuel k
    return ⟨secs * 1000 + us / 1000, k', k - 2⟩
  else return ⟨secs * 1000 + us / 1000, k, k - 2⟩

/-- The call makes the read number `k`: it does not return before. -/
def Made (times : ℕ → ℕ) (k : ℕ) : Prop := ∀ fuel o, rtcMs fuel times = some o → k < o.reads

/-- All reads of the call are within 4 ticks. -/
def InSpan (times : ℕ → ℕ) : Prop := ∀ k, Made times k → times k < times 0 + 4

/-- The microseconds of a value of the prescaler, rounded to the nearest. -/
def usAt (p : ℕ) : ℕ := (p * 1000000 + 16384) / 32768

/-- The milliseconds at a tick. -/
def msAt (t : ℕ) : ℕ := 1000 * (t / 32768) + usAt (t % 32768) / 1000

/-! ### Double reads -/

section DoubleRead

variable {reg : ℕ → Word} {times : ℕ → ℕ}

theorem doubleRead_spec {fuel k : ℕ} {r : Word × ℕ} (h : doubleRead reg times fuel k = some r) :
    ∃ j, k ≤ j ∧ r = (reg (times j), j + 2) ∧ reg (times j) = reg (times (j + 1)) := by
  induction fuel generalizing k with
  | zero => cases h
  | succ fuel ih =>
    rw [doubleRead] at h
    split at h
    · next hsame => exact ⟨k, le_rfl, (Option.some.inj h).symm, hsame⟩
    · obtain ⟨j, hj, hr⟩ := ih h
      exact ⟨j, by omega, hr⟩

/-- More fuel does not change the result. -/
theorem doubleRead_mono {fuel fuel' k : ℕ} {r : Word × ℕ} (h : doubleRead reg times fuel k = some r)
    (hle : fuel ≤ fuel') : doubleRead reg times fuel' k = some r := by
  induction fuel generalizing fuel' k with
  | zero => cases h
  | succ fuel ih =>
    obtain ⟨fuel', rfl⟩ : ∃ m, fuel' = m + 1 := ⟨fuel' - 1, by omega⟩
    rw [doubleRead] at h ⊢
    split
    · next hsame =>
      rw [if_pos hsame] at h
      exact h
    · next hdiffer =>
      rw [if_neg hdiffer] at h
      exact ih h (by omega)

/-- Two reads disagree only if the clock ticks between them, so that a loop that has at most `m` ticks
left ends after at most `m + 1` rounds. -/
theorem doubleRead_returns (hmono : Monotone times) {last : ℕ} (hlast : ∀ k, times k ≤ last)
    {m k : ℕ} (hm : last - times k ≤ m) : ∃ r, doubleRead reg times (m + 1) k = some r := by
  induction m generalizing k with
  | zero =>
    have hsame : times k = times (k + 1) := by
      have hnext := hmono (Nat.le_add_right k 1)
      have hend := hlast (k + 1)
      omega
    exact ⟨_, by rw [doubleRead, if_pos (by rw [← hsame])]⟩
  | succ m ih =>
    by_cases hsame : reg (times k) = reg (times (k + 1))
    · exact ⟨_, by rw [doubleRead, if_pos hsame]⟩
    · have htick : times k < times (k + 1) :=
        lt_of_le_of_ne (hmono (Nat.le_add_right k 1)) fun heq => hsame (by rw [heq])
      have hnext : times (k + 1) ≤ times (k + 2) := hmono (by omega)
      rw [doubleRead, if_neg hsame]
      exact ih (by omega)

end DoubleRead

/-! ### The arithmetic -/

/-- The products fit into 32 bits. -/
theorem product_lt (t : ℕ) : (tpr t).toNat * (1000000 / 64) + 16384 / 64 < 2 ^ 32 := by
  rw [tpr, BitVec.toNat_ofNat]
  omega

theorem usAt_lt {p : ℕ} (hp : p < 32768) : usAt p < 1000000 := by
  rw [usAt]
  omega

/-- Leaving out `2^6` changes nothing. -/
theorem usAt_eq (p : ℕ) : usAt p = (p * 15625 + 256) / 512 := by
  have hscale : p * 1000000 + 16384 = (p * 15625 + 256) * 64 := by
    ring
  rw [usAt, hscale]
  exact Nat.mul_div_mul_right (p * 15625 + 256) 512 (by norm_num : 0 < 64)

theorem toNat_usAt (t : ℕ) : (BitVec.ofNat 32 (usAt (t % 32768))).toNat = usAt (t % 32768) := by
  have hlt := usAt_lt (Nat.mod_lt t (by norm_num : 0 < 32768))
  rw [BitVec.toNat_ofNat, Nat.mod_eq_of_lt (by omega)]

theorem microseconds_tpr (t : ℕ) : microseconds (tpr t) = BitVec.ofNat 32 (usAt (t % 32768)) := by
  have htpr : (tpr t).toNat = t % 32768 := by
    rw [tpr, BitVec.toNat_ofNat]
    omega
  have hproduct : t % 32768 * 15625 + 256 < 4294967296 := by
    omega
  refine BitVec.eq_of_toNat_eq ?_
  rw [toNat_usAt, usAt_eq, microseconds, BitVec.toNat_udiv, BitVec.toNat_add, BitVec.toNat_mul, htpr]
  change (t % 32768 * 15625 % 4294967296 + 256) % 4294967296 / 512 = _
  rw [Nat.mod_eq_of_lt (Nat.lt_of_le_of_lt (Nat.le_add_right _ 256) hproduct),
    Nat.mod_eq_of_lt hproduct]

/-- The threshold for the second read of the seconds is 3 ticks. -/
theorem microseconds_lt_iff (t : ℕ) : microseconds (tpr t) < 100 ↔ t % 32768 ≤ 3 := by
  rw [microseconds_tpr, BitVec.lt_def, toNat_usAt, usAt]
  change _ < 100 ↔ _
  omega

theorem value_eq (t t' : ℕ) (h : t / 32768 = t' / 32768) :
    tsr t * 1000 + microseconds (tpr t') / 1000 = BitVec.ofNat 32 (msAt t') := by
  have hdiv : BitVec.ofNat 32 (usAt (t' % 32768)) / 1000 =
      BitVec.ofNat 32 (usAt (t' % 32768) / 1000) := by
    have hlt := usAt_lt (Nat.mod_lt t' (by norm_num : 0 < 32768))
    refine BitVec.eq_of_toNat_eq ?_
    rw [BitVec.toNat_udiv, toNat_usAt, BitVec.toNat_ofNat]
    change _ / 1000 = _
    omega
  rw [microseconds_tpr, hdiv, tsr, h, msAt, BitVec.ofNat_add, BitVec.ofNat_mul, BitVec.mul_comm]
  rfl

/-- **The time does not go back**, also from one second to the next. -/
theorem msAt_mono : Monotone msAt := by
  intro t t' h
  have hus := usAt_lt (Nat.mod_lt t (by norm_num : 0 < 32768))
  rw [msAt, msAt]
  rcases (Nat.div_le_div_right h : t / 32768 ≤ t' / 32768).lt_or_eq with hlt | heq
  · omega
  · have hp : t % 32768 ≤ t' % 32768 := by
      omega
    have hle : usAt (t % 32768) / 1000 ≤ usAt (t' % 32768) / 1000 := by
      rw [usAt, usAt]
      omega
    omega

/-! ### Calls -/

section Calls

variable {times : ℕ → ℕ}

/-- The reads of a call: of the seconds from number `i` on, of the prescaler from `j` on, and of the
seconds once more from `l` on, if the prescaler has just started. -/
theorem rtcMs_cases {fuel : ℕ} {o : Outcome} (h : rtcMs fuel times = some o) :
    ∃ i j, i + 2 ≤ j ∧ o.prescaler = j ∧ tpr (times j) = tpr (times (j + 1)) ∧
      (times j % 32768 ≤ 3 ∧ (∃ l, j + 2 ≤ l ∧ o.reads = l + 2 ∧
          o.value = tsr (times l) * 1000 + microseconds (tpr (times j)) / 1000) ∨
        3 < times j % 32768 ∧ o.reads = j + 2 ∧
          o.value = tsr (times i) * 1000 + microseconds (tpr (times j)) / 1000) := by
  obtain ⟨r₁, h₁, h⟩ := Option.bind_eq_some_iff.1 h
  obtain ⟨i, -, rfl, -⟩ := doubleRead_spec h₁
  obtain ⟨r₂, h₂, h⟩ := Option.bind_eq_some_iff.1 h
  obtain ⟨j, hij, rfl, hsame⟩ := doubleRead_spec h₂
  refine ⟨i, j, hij, ?_⟩
  simp only [Nat.add_sub_cancel, microseconds_lt_iff] at h
  split at h
  · next hsmall =>
    obtain ⟨r₃, h₃, h⟩ := Option.bind_eq_some_iff.1 h
    obtain ⟨l, hjl, rfl, -⟩ := doubleRead_spec h₃
    obtain rfl := Option.some.inj h
    exact ⟨rfl, hsame, .inl ⟨hsmall, l, hjl, rfl, rfl⟩⟩
  · next hlarge =>
    obtain rfl := Option.some.inj h
    exact ⟨rfl, hsame, .inr ⟨not_le.1 hlarge, rfl, rfl⟩⟩

theorem rtcMs_mono {fuel fuel' : ℕ} {o : Outcome} (h : rtcMs fuel times = some o)
    (hle : fuel ≤ fuel') : rtcMs fuel' times = some o := by
  obtain ⟨r₁, h₁, h⟩ := Option.bind_eq_some_iff.1 h
  obtain ⟨r₂, h₂, h⟩ := Option.bind_eq_some_iff.1 h
  refine Option.bind_eq_some_iff.2 ⟨r₁, doubleRead_mono h₁ hle,
    Option.bind_eq_some_iff.2 ⟨r₂, doubleRead_mono h₂ hle, ?_⟩⟩
  dsimp only at h ⊢
  split
  · next hsmall =>
    rw [if_pos hsmall] at h
    obtain ⟨r₃, h₃, h⟩ := Option.bind_eq_some_iff.1 h
    exact Option.bind_eq_some_iff.2 ⟨r₃, doubleRead_mono h₃ hle, h⟩
  · next hlarge =>
    rw [if_neg hlarge] at h
    exact h

theorem rtcMs_unique {fuel fuel' : ℕ} {o o' : Outcome} (h : rtcMs fuel times = some o)
    (h' : rtcMs fuel' times = some o') : o = o' := by
  rcases le_total fuel fuel' with hle | hle
  · exact Option.some.inj ((rtcMs_mono h hle).symm.trans h')
  · exact Option.some.inj (h.symm.trans (rtcMs_mono h' hle))

/-- **The value.** If the reads of a call are within 4 ticks, it returns the time at which it has
read the prescaler. -/
theorem rtcMs_value (hmono : Monotone times) {fuel : ℕ} {o : Outcome}
    (h : rtcMs fuel times = some o) (hspan : ∀ k < o.reads, times k < times 0 + 4) :
    o.value = BitVec.ofNat 32 (msAt (times o.prescaler)) := by
  obtain ⟨i, j, hij, hj, -, ⟨hsmall, l, hjl, hreads, hvalue⟩ | ⟨hlarge, hreads, hvalue⟩⟩ :=
    rtcMs_cases h
  · -- the prescaler has just started, so the seconds do not change before they are read again
    have hle : times j ≤ times l := hmono (by omega)
    have hstart : times 0 ≤ times j := hmono (Nat.zero_le _)
    have hend := hspan l (by omega)
    rw [hvalue, hj]
    exact value_eq _ _ (by omega)
  · -- the prescaler has started before the call
    have hle : times i ≤ times j := hmono (by omega)
    have hstart : times 0 ≤ times i := hmono (Nat.zero_le _)
    have hend := hspan j (by omega)
    rw [hvalue, hj]
    exact value_eq _ _ (by omega)

/-- **Calls return**: their loops end after at most 4 rounds. -/
theorem rtcMs_returns (hmono : Monotone times) (hspan : ∀ k, times k < times 0 + 4) :
    ∃ o, rtcMs 4 times = some o := by
  have hread : ∀ (reg : ℕ → Word) k, ∃ r, doubleRead reg times 4 k = some r := by
    intro reg k
    have hlast : ∀ k, times k ≤ times 0 + 3 := by
      intro k
      have hk := hspan k
      omega
    have hk := hmono (Nat.zero_le k)
    exact doubleRead_returns hmono hlast (by omega)
  obtain ⟨⟨secs, k₁⟩, h₁⟩ := hread tsr 0
  obtain ⟨⟨read1, k₂⟩, h₂⟩ := hread tpr k₁
  obtain ⟨⟨secs', k₃⟩, h₃⟩ := hread tsr k₂
  simp only [rtcMs, h₁, h₂, h₃, Option.bind_eq_bind, Option.bind_some]
  split
  · exact ⟨_, rfl⟩
  · exact ⟨_, rfl⟩

/-- A call returns if the reads that it makes are within 4 ticks; if it did not, it would make them
all. -/
theorem returns_of_inSpan (hmono : Monotone times) (hspan : InSpan times) :
    ∃ fuel o, rtcMs fuel times = some o := by
  by_contra hnone
  have hmade : ∀ k, Made times k := fun k fuel o h => absurd ⟨fuel, o, h⟩ hnone
  obtain ⟨o, ho⟩ := rtcMs_returns hmono fun k => hspan k (hmade k)
  exact hnone ⟨4, o, ho⟩

theorem span_of_inSpan (hspan : InSpan times) {fuel : ℕ} {o : Outcome}
    (h : rtcMs fuel times = some o) : ∀ k < o.reads, times k < times 0 + 4 :=
  fun k hk => hspan k fun _ _ h' => rtcMs_unique h h' ▸ hk

/-- The two reads of the prescaler that agree are made at the same tick. -/
theorem prescaler_instant (hmono : Monotone times) {fuel : ℕ} {o : Outcome}
    (h : rtcMs fuel times = some o) (hspan : ∀ k < o.reads, times k < times 0 + 4) :
    o.prescaler + 1 < o.reads ∧ times o.prescaler = times (o.prescaler + 1) := by
  obtain ⟨i, j, hij, hj, hsame, hcases⟩ := rtcMs_cases h
  have hreads : j + 2 ≤ o.reads := by
    rcases hcases with ⟨-, l, hjl, hreads, -⟩ | ⟨-, hreads, -⟩
    · omega
    · omega
  rw [hj]
  refine ⟨hreads, ?_⟩
  have hstart : times 0 ≤ times j := hmono (Nat.zero_le _)
  have hle : times j ≤ times (j + 1) := hmono (Nat.le_add_right _ _)
  have hend := hspan (j + 1) hreads
  have hnat := congrArg BitVec.toNat hsame
  rw [tpr, tpr, BitVec.toNat_ofNat, BitVec.toNat_ofNat] at hnat
  omega

end Calls

/-- **The clock.** Whenever its reads are at ticks that do not go back and within 4 ticks, a call
returns the time, modulo `2^32`, of the one tick at which it reads the prescaler; the scaling to
microseconds fits into 32 bits; and the time of a later call is not before the one of an earlier
call.  The product `secs*1000` does not fit from `TSR = 4294968` on; it is meant modulo `2^32`, as
is the value that is returned. -/
theorem rtc_ms_consistent :
    (∀ times, Monotone times → InSpan times → ∃ o fuel₀,
      (∀ fuel, fuel₀ ≤ fuel → rtcMs fuel times = some o) ∧
      o.prescaler + 1 < o.reads ∧ times o.prescaler = times (o.prescaler + 1) ∧
      o.value = BitVec.ofNat 32 (msAt (times o.prescaler))) ∧
    (∀ t, (tpr t).toNat * (1000000 / 64) + 16384 / 64 < 2 ^ 32) ∧
    ∀ times times', Monotone times → InSpan times → Monotone times' → InSpan times' →
      ∀ fuel o o', rtcMs fuel times = some o → rtcMs fuel times' = some o' →
      times (o.reads - 1) ≤ times' 0 →
      msAt (times o.prescaler) ≤ msAt (times' o'.prescaler) ∧
        o'.value - o.value =
          BitVec.ofNat 32 (msAt (times' o'.prescaler) - msAt (times o.prescaler)) := by
  refine ⟨?_, product_lt, ?_⟩
  · intro times hmono hspan
    obtain ⟨fuel, o, ho⟩ := returns_of_inSpan hmono hspan
    have hreads := span_of_inSpan hspan ho
    obtain ⟨hmade, hinstant⟩ := prescaler_instant hmono ho hreads
    exact ⟨o, fuel, fun fuel' hle => rtcMs_mono ho hle, hmade, hinstant,
      rtcMs_value hmono ho hreads⟩
  · intro times times' hmono hspan hmono' hspan' fuel o o' ho ho' hlater
    have hreads := span_of_inSpan hspan ho
    obtain ⟨hmade, -⟩ := prescaler_instant hmono ho hreads
    have hle : msAt (times o.prescaler) ≤ msAt (times' o'.prescaler) := by
      refine msAt_mono ?_
      calc times o.prescaler ≤ times (o.reads - 1) := hmono (by omega)
        _ ≤ times' 0 := hlater
        _ ≤ times' o'.prescaler := hmono' (Nat.zero_le _)
    refine ⟨hle, ?_⟩
    rw [rtcMs_value hmono ho hreads, rtcMs_value hmono' ho' (span_of_inSpan hspan' ho'),
      ofNat_sub_ofNat hle]

/-- The seconds roll over after they have been read, and a second call follows 10000 ticks later. -/
theorem rtc_ms_consistent_rollover :
    rtcMs 4 (fun k => if k < 2 then 32767 else 32769) = some ⟨1000, 6, 2⟩ ∧
      rtcMs 4 (fun _ => 42769) = some ⟨1305, 4, 2⟩ ∧ msAt 32769 ≤ msAt 42769 := by
  have hmono : Monotone fun k : ℕ => if k < 2 then 32767 else 32769 := by
    intro k l hkl
    dsimp only
    split_ifs <;> omega
  have hspan : InSpan fun k : ℕ => if k < 2 then 32767 else 32769 := by
    intro k _
    dsimp only
    split_ifs <;> omega
  have hfirst : rtcMs 4 (fun k => if k < 2 then 32767 else 32769) = some ⟨1000, 6, 2⟩ := by
    decide +kernel
  have hsecond : rtcMs 4 (fun _ => 42769) = some ⟨1305, 4, 2⟩ := by
    decide +kernel
  exact ⟨hfirst, hsecond, (rtc_ms_consistent.2.2 _ _ hmono hspan monotone_const
    (fun _ _ => by norm_num) 4 _ _ hfirst hsecond (by norm_num)).1⟩

end RtcMs
