import Mathlib.Data.List.TakeWhile
import Mathlib.Tactic
import Teensy3.Lib.LeastSearch
import Teensy3.Lib.RegProgram
import Teensy3.Sdhc.Baudrate

/-!
# The dividers for a rate

`SDHC_set_baudrate` has to select the fastest clock that is not above the rate that it is asked for,
and the slowest one when all of them are above it.  It takes the pair of dividers for which
`pres * div * baudrate - clock` is least, among those for which it is not negative.  As the
difference is a number of 32 bits, it may be small because it has wrapped around.  And when there is
no such pair, what is left are the values that the search starts with, `0x80` and `0x0F`.  These are
the codes of the dividers 256 and 16 in the register, but they are taken for dividers.

* `product`, `Sufficient`, `IsFastest`: what has to be selected, in exact arithmetic;
* `distance`: the difference as the search has it, with `closest_cases` for the pair that has the
  least one;
* `FastestIsNearest`: the fastest pair is also the one with the least distance;
* `SetsFastest`: what `SDHC_set_baudrate` has to do;
* `fastestIsNearest_of_no_overflow`: rates for which nothing wraps around.
-/

namespace Sdhc

open RegProgram Machine LeastSearch

/-! ### What has to be selected -/

/-- The number by which a pair divides the clock. -/
def product (s : Word × Word) : ℕ := s.1.toNat * s.2.toNat

/-- The clock that a pair gives is not above the rate. -/
def Sufficient (clock baudrate : Word) (s : Word × Word) : Prop :=
  clock.toNat ≤ product s * baudrate.toNat

instance (clock baudrate : Word) (s : Word × Word) : Decidable (Sufficient clock baudrate s) :=
  inferInstanceAs (Decidable (_ ≤ _))

/-- A pair gives the fastest clock that is not above the rate. -/
structure IsFastest (clock baudrate : Word) (s : Word × Word) : Prop where
  mem : s ∈ settings
  sufficient : Sufficient clock baudrate s
  least : ∀ r ∈ settings, Sufficient clock baudrate r → product s ≤ product r

/-- How far the rate times the product is above the clock, up to multiples of `2 ^ 32`. -/
def distance (clock baudrate : Word) (s : Word × Word) : ℤ :=
  (product s * baudrate.toNat - clock.toNat : ℤ) % 2 ^ 32

/-- There is a fastest pair, its distance is not negative as a signed number, and no pair has a
smaller one. -/
def FastestIsNearest (clock baudrate : Word) : Prop :=
  ∃ s, IsFastest clock baudrate s ∧ distance clock baudrate s < 2 ^ 31 ∧
    ∀ r ∈ settings, distance clock baudrate s ≤ distance clock baudrate r

/-! ### The pairs -/

theorem settings_product : ∀ s ∈ settings, 2 ∣ product s ∧ product s ≠ 0 ∧ product s ≤ 4096 :=
  forall_settings (by decide +kernel)

/-- The first pair with a product comes before all pairs with greater ones. -/
theorem exists_front : ∀ s ∈ settings,
    ∃ r ∈ settings.takeWhile (product · ≤ product s), product r = product s := by
  have hall : settings.all (fun s => (settings.takeWhile (product · ≤ product s)).any
      (product · == product s)) = true := by
    decide +kernel
  intro s hs
  obtain ⟨r, hr, heq⟩ := List.any_eq_true.1 (List.all_eq_true.1 hall s hs)
  exact ⟨r, hr, beq_iff_eq.1 heq⟩

theorem exists_two_pow : ∀ j < 12, ∃ s ∈ settings, product s = 2 ^ (j + 1) := by
  decide +kernel

/-! ### The values of the search -/

section Distance

variable {clock baudrate : Word} {s r : Word × Word}

theorem toNat_val : ((val clock baudrate s).toNat : ℤ) = distance clock baudrate s := by
  have hproduct : (s.1 * s.2 * baudrate).toNat = product s * baudrate.toNat % 2 ^ 32 := by
    rw [BitVec.toNat_mul, BitVec.toNat_mul, Nat.mod_mul_mod]
    rfl
  rw [val, distance, BitVec.toNat_sub, hproduct]
  have hclock := clock.isLt
  push_cast
  omega

theorem toInt_val_nonneg : 0 ≤ (val clock baudrate s).toInt ↔ distance clock baudrate s < 2 ^ 31 := by
  rw [BitVec.toInt_eq_toNat_cond, ← toNat_val]
  have hlt := (val clock baudrate s).isLt
  split <;> omega

theorem distance_of_sufficient (h : Sufficient clock baudrate s)
    (hlt : product s * baudrate.toNat < clock.toNat + 2 ^ 32) :
    distance clock baudrate s = product s * baudrate.toNat - clock.toNat := by
  rw [Sufficient] at h
  rw [distance]
  omega

theorem distance_of_not_sufficient (h : ¬ Sufficient clock baudrate s) :
    distance clock baudrate s = product s * baudrate.toNat - clock.toNat + 2 ^ 32 := by
  have hclock := clock.isLt
  rw [Sufficient] at h
  rw [distance]
  omega

end Distance

/-! ### The pair that is selected -/

section Closest

variable {clock baudrate : Word} {s r : Word × Word}

/-- The pair that the search selects has the least distance of all pairs. -/
theorem distance_le_of_first {c : Word × Word}
    (h : FirstLeast (fun s => 0 ≤ (val clock baudrate s).toInt)
      (fun s => (val clock baudrate s).toNat) c settings) :
    distance clock baudrate c < 2 ^ 31 ∧
      ∀ r ∈ settings, distance clock baudrate c ≤ distance clock baudrate r := by
  have hlt := toInt_val_nonneg.1 h.allowed
  refine ⟨hlt, fun r hr => ?_⟩
  by_cases hok : distance clock baudrate r < 2 ^ 31
  · have hle := h.le hr (toInt_val_nonneg.2 hok)
    rw [← toNat_val, ← toNat_val]
    exact_mod_cast hle
  · omega

/-- What a power of two in a product leaves for one factor is itself a power of two. -/
theorem exists_two_pow_gcd {n m b : ℕ} (h : 2 ^ n ∣ m * b) :
    ∃ j, Nat.gcd (2 ^ n) m = 2 ^ j ∧ 2 ^ n ∣ 2 ^ j * b := by
  obtain ⟨j, -, hj⟩ := (Nat.dvd_prime_pow Nat.prime_two).1 (Nat.gcd_dvd_left (2 ^ n) m)
  have hdvd : 2 ^ n ∣ Nat.gcd (2 ^ n) m * b := Nat.dvd_gcd_mul_iff_dvd_mul.2 h
  rw [hj] at hdvd
  exact ⟨j, hj, hdvd⟩

/-- Two pairs with the same distance. -/
theorem dvd_of_distance_eq (hle : product r ≤ product s)
    (h : distance clock baudrate r = distance clock baudrate s) :
    2 ^ 32 ∣ (product s - product r) * baudrate.toNat := by
  have hdvd := Int.ModEq.dvd h
  zify [hle]
  convert hdvd using 1
  ring

/-- A pair with a smaller product than the fastest one does not have the same distance. -/
theorem product_le_of_distance_eq (hs : IsFastest clock baudrate s) (hr : r ∈ settings)
    (h : distance clock baudrate r = distance clock baudrate s) : product s ≤ product r := by
  by_contra hlt
  obtain ⟨heven, -, hmax⟩ := settings_product s hs.mem
  obtain ⟨heven', hpos, -⟩ := settings_product r hr
  have hsufficient := hs.sufficient
  by_cases hb : baudrate.toNat = 0
  · refine hlt (hs.least r hr ?_)
    rw [Sufficient, hb] at hsufficient ⊢
    exact hsufficient
  obtain ⟨j, hgcd, hdvd⟩ := exists_two_pow_gcd (dvd_of_distance_eq (not_le.1 hlt).le h)
  -- The power of two in the difference of the products is the product of a pair, …
  have hle : 2 ^ j ≤ product s - product r := by
    rw [← hgcd]
    exact Nat.gcd_le_right _ (by omega)
  have hj : 0 < j := by
    have htwo : 2 ∣ 2 ^ j := by
      rw [← hgcd]
      exact Nat.dvd_gcd (by norm_num) (Nat.dvd_sub heven heven')
    rcases Nat.eq_zero_or_pos j with rfl | hj
    · norm_num at htwo
    · exact hj
  have hj' : j < 12 := (Nat.pow_lt_pow_iff_right (by norm_num)).1 (show 2 ^ j < 2 ^ 12 by omega)
  obtain ⟨t, ht, hproduct⟩ := exists_two_pow (j - 1) (by omega)
  rw [Nat.sub_add_cancel hj] at hproduct
  -- … which is slow enough, and less than that of the fastest one.
  have hslow : 2 ^ 32 ≤ 2 ^ j * baudrate.toNat := Nat.le_of_dvd (by positivity) hdvd
  have hleast := hs.least t ht (by rw [Sufficient, hproduct]; exact clock.isLt.le.trans hslow)
  omega

/-- Where the fastest pair is the nearest one, it is selected. -/
theorem isFastest_closest (h : FastestIsNearest clock baudrate) :
    IsFastest clock baudrate (closest clock baudrate) := by
  obtain ⟨s, hs, hlt, hle⟩ := h
  rcases closest_cases clock baudrate with ⟨-, hall⟩ | hfirst
  · exact absurd (toInt_val_nonneg.2 hlt) (not_le.2 (hall s hs.mem))
  set c := closest clock baudrate
  have hdistance : distance clock baudrate c = distance clock baudrate s :=
    le_antisymm ((distance_le_of_first hfirst).2 s hs.mem) (hle c hfirst.mem)
  -- The search has met a pair with the product of `s` before any pair with a greater one.
  obtain ⟨r, hr, hproduct⟩ := exists_front s hs.mem
  have hsame : distance clock baudrate r = distance clock baudrate s := by
    rw [distance, hproduct, distance]
  have hkey : (val clock baudrate r).toNat ≤ (val clock baudrate c).toNat := by
    zify
    rw [toNat_val, toNat_val, hsame, hdistance]
  rw [← List.takeWhile_append_dropWhile (p := (product · ≤ product s)) (l := settings)] at hfirst
  have hfront := hfirst.mem_of_append hr (toInt_val_nonneg.2 (hsame.trans_lt hlt)) hkey
  have hle' : product c ≤ product s := by
    simpa using List.mem_takeWhile_imp hfront
  have hmem : c ∈ settings := closest_mem clock baudrate
  have heq : product c = product s := le_antisymm hle' (product_le_of_distance_eq hs hmem hdistance)
  constructor
  · exact hmem
  · rw [Sufficient, heq]
    exact hs.sufficient
  · rw [heq]
    exact hs.least

/-- The pair that the search starts with is not the fastest one unless it is also found. -/
theorem not_isFastest_start (hall : ∀ s ∈ settings, (val clock baudrate s).toInt < 0) :
    ¬ IsFastest clock baudrate (0x80, 0x0F) := by
  intro hstart
  have hfaster : ¬ Sufficient clock baudrate (0x80, 0x0E) := by
    intro hfaster
    exact absurd (hstart.least (0x80, 0x0E) (by decide +kernel) hfaster) (by decide)
  have hclock := clock.isLt
  have hproduct : product (0x80, 0x0F) = 1920 := rfl
  have hproduct' : product (0x80, 0x0E) = 1792 := rfl
  have hsufficient := hstart.sufficient
  rw [Sufficient, hproduct'] at hfaster
  have hdistance := distance_of_sufficient hsufficient (by rw [hproduct]; omega)
  have hlt : distance clock baudrate (0x80, 0x0F) < 2 ^ 31 := by
    rw [hdistance, hproduct]
    omega
  exact absurd (toInt_val_nonneg.2 hlt) (not_le.2 (hall _ hstart.mem))

theorem fastestIsNearest_of_isFastest (h : IsFastest clock baudrate (closest clock baudrate)) :
    FastestIsNearest clock baudrate := by
  rcases closest_cases clock baudrate with ⟨hstart, hall⟩ | hfirst
  · rw [hstart] at h
    exact absurd h (not_isFastest_start hall)
  · exact ⟨_, h, distance_le_of_first hfirst⟩

/-- When all pairs give a clock above the rate, the slowest one is not selected. -/
theorem closest_ne_slowest (h : ∀ s ∈ settings, ¬ Sufficient clock baudrate s) :
    closest clock baudrate ≠ (256, 16) := by
  rcases closest_cases clock baudrate with ⟨hstart, -⟩ | hfirst
  · rw [hstart]
    decide
  intro hclosest
  rw [hclosest] at hfirst
  have hslow := distance_of_not_sufficient (h (256, 16) (by decide +kernel))
  have hfast := distance_of_not_sufficient (h (2, 1) (by decide +kernel))
  have hproduct : product (256, 16) = 4096 := rfl
  have hproduct' : product (2, 1) = 2 := rfl
  have hle : distance clock baudrate (2, 1) ≤ distance clock baudrate (256, 16) := by
    rw [hslow, hfast, hproduct, hproduct']
    omega
  have hlt := (distance_le_of_first hfirst).1
  have hkey : (val clock baudrate (2, 1)).toNat ≤ (val clock baudrate (256, 16)).toNat := by
    zify
    rwa [toNat_val, toNat_val]
  have hsplit : settings = [(2, 1)] ++ settings.tail := rfl
  rw [hsplit] at hfirst
  have hfront : (256, 16) ∈ [((2, 1) : Word × Word)] :=
    hfirst.mem_of_append List.mem_cons_self (toInt_val_nonneg.2 (hle.trans_lt hlt)) hkey
  exact absurd hfront (by decide)

end Closest

/-! ### The rate that is set -/

/-- `SDHC_set_baudrate` does what it has to do for a rate.  Its fourth access to a register is the
write that changes the dividers; the third reads what the write keeps. -/
structure SetsFastest (clock baudrate : Word) : Prop where
  fastest : (∃ s ∈ settings, Sufficient clock baudrate s) →
    IsFastest clock baudrate (closest clock baudrate)
  slowest : (∀ s ∈ settings, ¬ Sufficient clock baudrate s) → closest clock baudrate = (256, 16)
  written : ∀ w v₁ v₂ v₃ v₄, dividers (run (step clockDevice) (setBaudrate clock baudrate, w)
    [.cpu v₁, .cpu v₂, .cpu v₃, .cpu v₄]).2 = closest clock baudrate
  programmed : ∀ w w' es, Idle w →
    run (step clockDevice) (setBaudrate clock baudrate, w) es = (.done (), w') →
      dividers w' = closest clock baudrate

/-- **The rate is set right** if and only if the fastest pair is the nearest one. -/
theorem setBaudrate_fastest_iff (clock baudrate : Word) :
    SetsFastest clock baudrate ↔ FastestIsNearest clock baudrate := by
  constructor
  · intro h
    by_cases hsome : ∃ s ∈ settings, Sufficient clock baudrate s
    · exact fastestIsNearest_of_isFastest (h.fastest hsome)
    · have hnone : ∀ s ∈ settings, ¬ Sufficient clock baudrate s :=
        fun s hs hsufficient => hsome ⟨s, hs, hsufficient⟩
      exact absurd (h.slowest hnone) (closest_ne_slowest hnone)
  · intro h
    have hfastest := isFastest_closest h
    constructor
    · exact fun _ => hfastest
    · exact fun hnone => absurd hfastest.sufficient (hnone _ hfastest.mem)
    · exact fun w _ _ _ _ => dividers_change hfastest.mem (w &&& ~~~Sysctl.sdclken)
    · intro w w' es hidle hrun
      exact dividers_of_programmed hfastest.mem (safe_run (ends_setBaudrate clock baudrate hidle) hrun)

/-- With a clock of 120 MHz, a clock of 104 kHz is selected for a rate of 11.3 MHz although 10 MHz
would do, and one of 62.5 kHz for a rate of 20 kHz although there is one of 29.3 kHz. -/
theorem setBaudrate_not_fastest :
    closest clockSpeed 11300000 = (128, 9) ∧ ¬ SetsFastest clockSpeed 11300000 ∧
      closest clockSpeed 20000 = (128, 15) ∧ ¬ SetsFastest clockSpeed 20000 := by
  have hwrapped : closest clockSpeed 11300000 = (128, 9) := by
    decide +kernel
  have hstart : closest clockSpeed 20000 = (128, 15) := by
    decide +kernel
  refine ⟨hwrapped, fun h => ?_, hstart, fun h => ?_⟩
  · have hten : (4, 3) ∈ settings ∧ Sufficient clockSpeed 11300000 (4, 3) := by
      decide +kernel
    have hleast := (h.fastest ⟨_, hten⟩).least _ hten.1 hten.2
    rw [hwrapped] at hleast
    exact absurd hleast (by decide)
  · have hslowest := h.slowest (forall_settings (by decide +kernel))
    rw [hstart] at hslowest
    exact absurd hslowest (by decide)

/-! ### Rates for which nothing wraps around -/

/-- A pair that is slow enough gives a fastest one. -/
theorem exists_isFastest {clock baudrate : Word} {r : Word × Word} (hr : r ∈ settings)
    (h : Sufficient clock baudrate r) : ∃ s, IsFastest clock baudrate s := by
  have hmem : r ∈ settings.toFinset.filter (Sufficient clock baudrate) :=
    Finset.mem_filter.2 ⟨List.mem_toFinset.2 hr, h⟩
  obtain ⟨s, hs, hleast⟩ := Finset.exists_min_image _ product ⟨r, hmem⟩
  obtain ⟨hsettings, hsufficient⟩ := Finset.mem_filter.1 hs
  refine ⟨s, List.mem_toFinset.1 hsettings, hsufficient, fun t ht hslow => ?_⟩
  exact hleast t (Finset.mem_filter.2 ⟨List.mem_toFinset.2 ht, hslow⟩)

/-- Nothing wraps around for a rate that the slowest clock is not above, as long as the difference for
that clock is less than `2 ^ 31`, and the clock is not more than that. -/
theorem fastestIsNearest_of_no_overflow {clock baudrate : Word} (hclock : clock.toNat ≤ 2 ^ 31)
    (hslow : clock.toNat ≤ 4096 * baudrate.toNat)
    (hfast : 4096 * baudrate.toNat < clock.toNat + 2 ^ 31) : FastestIsNearest clock baudrate := by
  have hslowest : Sufficient clock baudrate (256, 16) := hslow
  obtain ⟨s, hs⟩ := exists_isFastest (by decide +kernel) hslowest
  have hbound : ∀ r ∈ settings, product r * baudrate.toNat < clock.toNat + 2 ^ 31 := fun r hr =>
    (Nat.mul_le_mul_right _ (settings_product r hr).2.2).trans_lt hfast
  have hdistance := distance_of_sufficient hs.sufficient ((hbound s hs.mem).trans (by omega))
  have hlt := hbound s hs.mem
  refine ⟨s, hs, by rw [hdistance]; omega, fun r hr => ?_⟩
  by_cases hsufficient : Sufficient clock baudrate r
  · have hle := Nat.mul_le_mul_right baudrate.toNat (hs.least r hr hsufficient)
    rw [hdistance, distance_of_sufficient hsufficient ((hbound r hr).trans (by omega))]
    omega
  · have hnonneg : (0 : ℤ) ≤ product r * baudrate.toNat := by
      positivity
    rw [hdistance, distance_of_not_sufficient hsufficient]
    omega

end Sdhc
