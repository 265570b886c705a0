import Mathlib.Tactic
import Teensy3.Lib.ByteMem
import Teensy3.Lib.Restart

/-!
# Looking for a pattern on the serial line

`binfind` of `espntp.ino` reads the answers of the WiFi module until a pattern has come, for 5000 ms
at most.  At a mismatch it starts over with the next byte, so that it misses an occurrence that begins
inside of what has matched before; and it compares `millis()` with a deadline that may have wrapped
around.

* `Line`: what a call sees of the clock and of the serial line in the rounds of its loop;
* `beforeDeadline`, `receivedIn`, `DeadlineIn`: the test of a deadline, the bytes that come before it,
  and when the test works, for any timeout;
* `binfind`: the function, with the number of bytes that it has read;
* `received`: the bytes of the 5000 ms;
* `DeadlineOk`: calls for which the comparison with the deadline works;
* `Correct`: what the call should return and read, and `binfind_correct_iff`, which says when it does.
-/

namespace EspNtp

open Restart

abbrev Word := BitVec 32

/-- The rounds of the loop: the milliseconds since `t=millis()` at the test of the deadline, and the
byte that is there, if there is one.  There is a round in every millisecond. -/
structure Line where
  elapsed : ℕ → ℕ
  byte : ℕ → Option Byte
  first : elapsed 0 ≤ 1
  le_next : ∀ k, elapsed k ≤ elapsed (k + 1)
  next_le : ∀ k, elapsed (k + 1) ≤ elapsed k + 1
  unbounded : ∀ n, ∃ k, n ≤ elapsed k

/-- `millis()<t+5000` in a round. -/
def before (t : Word) (line : Line) (k : ℕ) : Bool :=
  decide (t + BitVec.ofNat 32 (line.elapsed k) < t + 5000)

/-- The loop from round `k` on, with the variable `i` and the number of bytes that have been read. -/
def binfindLoop (str : List Byte) (t : Word) (line : Line) : (fuel k i read : ℕ) → Option (Bool × ℕ)
  | 0, _, _, _ => none
  | fuel + 1, k, i, read =>
    if before t line k then
      match line.byte k with
      | none => binfindLoop str t line fuel (k + 1) i read
      | some c =>
        if str[i]? = some c then
          if i + 1 = str.length then some (true, read + 1)
          else binfindLoop str t line fuel (k + 1) (i + 1) (read + 1)
        else binfindLoop str t line fuel (k + 1) 0 (read + 1)
    else some (false, read)

/-- `binfind` -/
def binfind (str : List Byte) (t : Word) (line : Line) (fuel : ℕ) : Option (Bool × ℕ) :=
  binfindLoop str t line fuel 0 0 0

namespace Line

variable (line : Line)

/-- The rounds in the 5000 ms after the call. -/
def rounds : ℕ := Nat.find (line.unbounded 5000)

/-- The bytes of the rounds before round `k`. -/
def bytes (k : ℕ) : List Byte := (List.range k).filterMap line.byte

/-- The bytes that are received in the 5000 ms after the call. -/
def received : List Byte := line.bytes line.rounds

end Line

/-- `t+5000` does not wrap around, or `millis()` has wrapped around before the first test. -/
def DeadlineOk (t : Word) (line : Line) : Prop :=
  t.toNat + 5000 < 2 ^ 32 ∨ 2 ^ 32 ≤ t.toNat + line.elapsed 0

/-- The call finds the pattern if and only if it is there, and has then read up to the end of its
first occurrence. -/
def Correct (str received : List Byte) (r : Bool × ℕ) : Prop :=
  (r.1 = true ↔ str <:+: received) ∧
    (r.1 = true → ∃ pre, First str received pre ∧ r.2 = pre.length + str.length)

/-! ### Deadlines -/

/-- `millis()<t+timeout` in a round. -/
def beforeDeadline (t timeout : Word) (line : Line) (k : ℕ) : Bool :=
  decide (t + BitVec.ofNat 32 (line.elapsed k) < t + timeout)

/-- The rounds in the milliseconds after the call. -/
def Line.roundsIn (line : Line) (ms : ℕ) : ℕ := Nat.find (line.unbounded ms)

/-- The bytes that are received in the milliseconds after the call. -/
def Line.receivedIn (line : Line) (ms : ℕ) : List Byte := line.bytes (line.roundsIn ms)

/-- `t+timeout` does not wrap around, or `millis()` has wrapped around before the first test. -/
def DeadlineIn (t : Word) (line : Line) (ms : ℕ) : Prop :=
  t.toNat + ms < 2 ^ 32 ∨ 2 ^ 32 ≤ t.toNat + line.elapsed 0

section Deadline

variable {t timeout : Word} {line : Line} {ms : ℕ}

theorem elapsed_mono (line : Line) : Monotone line.elapsed := monotone_nat_of_le_succ line.le_next

theorem elapsed_lt {k : ℕ} (hk : k < line.roundsIn ms) : line.elapsed k < ms :=
  not_le.1 (Nat.find_min (line.unbounded ms) hk)

/-- As there is a round in every millisecond, the first one that is too late is just too late. -/
theorem elapsed_roundsIn (line : Line) (hms : 0 < ms) : line.elapsed (line.roundsIn ms) = ms := by
  have hge : ms ≤ line.elapsed (line.roundsIn ms) := Nat.find_spec (line.unbounded ms)
  cases hr : line.roundsIn ms with
  | zero =>
    have hfirst := line.first
    rw [hr] at hge
    omega
  | succ k =>
    have hlt : line.elapsed k < ms := elapsed_lt (by omega)
    have hnext := line.next_le k
    rw [hr] at hge
    omega

theorem beforeDeadline_iff (htimeout : timeout.toNat = ms) (k : ℕ) :
    beforeDeadline t timeout line k = true ↔
      (t.toNat + line.elapsed k) % 4294967296 < (t.toNat + ms) % 4294967296 := by
  rw [beforeDeadline, decide_eq_true_iff, BitVec.lt_def, BitVec.toNat_add, BitVec.toNat_add,
    BitVec.toNat_ofNat, Nat.add_mod_mod, htimeout]

theorem not_beforeDeadline_roundsIn (t : Word) (line : Line) (htimeout : timeout.toNat = ms)
    (hms : 0 < ms) : beforeDeadline t timeout line (line.roundsIn ms) = false := by
  rw [← Bool.not_eq_true, beforeDeadline_iff htimeout, elapsed_roundsIn line hms]
  exact lt_irrefl _

/-- The test works in all rounds, … -/
theorem beforeDeadline_of_deadlineIn (htimeout : timeout.toNat = ms) (h : DeadlineIn t line ms) {k : ℕ}
    (hk : k < line.roundsIn ms) : beforeDeadline t timeout line k = true := by
  have helapsed := elapsed_lt hk
  have hstart : line.elapsed 0 ≤ line.elapsed k := elapsed_mono line (Nat.zero_le k)
  have ht := t.isLt
  have hlt := timeout.isLt
  rw [beforeDeadline_iff htimeout]
  unfold DeadlineIn at h
  omega

/-- … or it ends the loop at once. -/
theorem not_beforeDeadline_of_not_deadlineIn (htimeout : timeout.toNat = ms)
    (h : ¬ DeadlineIn t line ms) : beforeDeadline t timeout line 0 = false := by
  have ht := t.isLt
  have hlt := timeout.isLt
  rw [← Bool.not_eq_true, beforeDeadline_iff htimeout]
  unfold DeadlineIn at h
  omega

/-! The deadline of `binfind` is 5000 ms. -/

theorem toNat_5000 : (5000 : Word).toNat = 5000 := rfl

theorem not_before_rounds (t : Word) (line : Line) : before t line line.rounds = false :=
  not_beforeDeadline_roundsIn t line toNat_5000 (by norm_num)

theorem before_of_deadlineOk (h : DeadlineOk t line) {k : ℕ} (hk : k < line.rounds) :
    before t line k = true :=
  beforeDeadline_of_deadlineIn toNat_5000 h hk

theorem not_before_of_not_deadlineOk (h : ¬ DeadlineOk t line) : before t line 0 = false :=
  not_beforeDeadline_of_not_deadlineIn toNat_5000 h

end Deadline

/-! ### The loop -/

section Loop

variable {str : List Byte} {t : Word} {line : Line}

theorem bytes_succ_none {k : ℕ} (h : line.byte k = none) : line.bytes (k + 1) = line.bytes k := by
  simp [Line.bytes, List.range_succ, h]

theorem bytes_succ_some {k : ℕ} {c : Byte} (h : line.byte k = some c) :
    line.bytes (k + 1) = line.bytes k ++ [c] := by
  simp [Line.bytes, List.range_succ, h]

theorem length_bytes_succ {k : ℕ} {c : Byte} (h : line.byte k = some c) :
    (line.bytes (k + 1)).length = (line.bytes k).length + 1 := by
  rw [bytes_succ_some h, List.length_append]
  rfl

theorem bytes_mono {k l : ℕ} (h : k ≤ l) : line.bytes k <+: line.bytes l := by
  obtain ⟨m, rfl⟩ := Nat.exists_eq_add_of_le h
  rw [Line.bytes, Line.bytes, List.range_add, List.filterMap_append]
  exact List.prefix_append _ _

/-- No match is complete in the first `n` bytes. -/
def NoMatch (str received : List Byte) (n : ℕ) : Prop :=
  ∀ m ≤ n, matched str (received.take m) ≠ str.length

/-- What the loop ends with: the first match, or all of the bytes. -/
def Ended (str received : List Byte) (r : Bool × ℕ) : Prop :=
  r.1 = true ∧ matched str (received.take r.2) = str.length ∧
      (∀ m < r.2, matched str (received.take m) ≠ str.length) ∨
    r.1 = false ∧ NoMatch str received received.length

/-- The bytes that have been read are the first ones of all. -/
theorem take_received {k : ℕ} (hk : k ≤ line.rounds) :
    line.received.take (line.bytes k).length = line.bytes k :=
  (List.prefix_iff_eq_take.1 (bytes_mono hk)).symm

/-- A round with a byte. -/
theorem binfindLoop_some {k fuel i read : ℕ} {c : Byte} (hbefore : before t line k = true)
    (hbyte : line.byte k = some c) (hgo : next str i c ≠ str.length) :
    binfindLoop str t line (fuel + 1) k i read =
      binfindLoop str t line fuel (k + 1) (next str i c) (read + 1) := by
  rw [binfindLoop, hbefore, if_pos rfl, hbyte]
  dsimp only
  split
  · next heq =>
    rw [next_of_eq heq] at hgo ⊢
    rw [if_neg hgo]
  · next hne => rw [next_of_ne hne]

/-- A round with the last byte of the pattern. -/
theorem binfindLoop_last (hstr : str ≠ []) {k fuel i read : ℕ} {c : Byte}
    (hbefore : before t line k = true) (hbyte : line.byte k = some c)
    (hlast : next str i c = str.length) :
    binfindLoop str t line (fuel + 1) k i read = some (true, read + 1) := by
  rw [binfindLoop, hbefore, if_pos rfl, hbyte]
  dsimp only
  split
  · next heq =>
    rw [next_of_eq heq] at hlast
    rw [if_pos hlast]
  · next hne =>
    rw [next_of_ne hne] at hlast
    exact absurd hlast (List.length_pos_iff.2 hstr).ne

/-- The next byte, if there is one, goes on with what has matched. -/
theorem matched_take_succ {k : ℕ} {c : Byte} (hk : k < line.rounds) (hbyte : line.byte k = some c) :
    matched str (line.received.take ((line.bytes k).length + 1)) =
      next str (matched str (line.bytes k)) c := by
  rw [← length_bytes_succ hbyte, take_received hk, bytes_succ_some hbyte, matched_append_singleton]

/-- A byte that does not complete the pattern. -/
theorem noMatch_succ {received : List Byte} {n : ℕ} (h : NoMatch str received n)
    (hnext : matched str (received.take (n + 1)) ≠ str.length) : NoMatch str received (n + 1) := by
  intro m hm
  rcases Nat.lt_or_eq_of_le hm with hlt | rfl
  · exact h m (Nat.le_of_lt_succ hlt)
  · exact hnext

/-- **The loop** keeps the number of bytes that match, and it ends in the rounds that are left. -/
theorem binfindLoop_spec (hstr : str ≠ []) (hbefore : ∀ k < line.rounds, before t line k = true)
    {m k : ℕ} (hk : k + m = line.rounds) (hno : NoMatch str line.received (line.bytes k).length) :
    ∃ r, (∀ extra, binfindLoop str t line (extra + m + 1) k (matched str (line.bytes k))
      (line.bytes k).length = some r) ∧ Ended str line.received r := by
  induction m generalizing k with
  | zero =>
    obtain rfl : k = line.rounds := hk
    refine ⟨(false, (line.bytes line.rounds).length), fun extra => ?_, .inr ⟨rfl, hno⟩⟩
    rw [binfindLoop, not_before_rounds]
    rfl
  | succ m ih =>
    have hlt : k < line.rounds := by
      omega
    have hnow := hbefore k hlt
    cases hbyte : line.byte k with
    | none =>
      have hsame := bytes_succ_none hbyte
      obtain ⟨r, hr, hend⟩ := ih (k := k + 1) (by omega) (by rwa [hsame])
      refine ⟨r, fun extra => ?_, hend⟩
      rw [binfindLoop, hnow, if_pos rfl, hbyte, ← hsame]
      exact hr extra
    | some c =>
      have hmatched : matched str (line.received.take ((line.bytes k).length + 1)) =
          next str (matched str (line.bytes k)) c :=
        matched_take_succ hlt hbyte
      by_cases hlast : next str (matched str (line.bytes k)) c = str.length
      · exact ⟨(true, (line.bytes k).length + 1),
          fun extra => binfindLoop_last hstr hnow hbyte hlast,
          .inl ⟨rfl, hmatched.trans hlast, fun n hn => hno n (Nat.le_of_lt_succ hn)⟩⟩
      · have hlength := length_bytes_succ hbyte
        have hnone : NoMatch str line.received (line.bytes (k + 1)).length := by
          rw [hlength]
          exact noMatch_succ hno (by rwa [hmatched])
        obtain ⟨r, hr, hend⟩ := ih (k := k + 1) (by omega) hnone
        refine ⟨r, fun extra => ?_, hend⟩
        rw [binfindLoop_some hnow hbyte hlast, ← hlength, ← matched_append_singleton,
          ← bytes_succ_some hbyte]
        exact hr extra

/-- What the loop ends with is right, if and only if the first occurrence, if there is one, is
found. -/
theorem correct_of_ended {received : List Byte} {r : Bool × ℕ} (h : Ended str received r) :
    Correct str received r ↔ ¬ str <:+: received ∨ ∃ pre, First str received pre ∧ Pieces str pre := by
  by_cases hocc : str <:+: received
  swap
  · -- a match would be an occurrence
    refine iff_of_true ⟨iff_of_false ?_ hocc, fun htrue => absurd htrue ?_⟩ (.inl hocc)
    all_goals
      intro htrue
      rcases h with ⟨-, hmatch, -⟩ | ⟨hfalse, -⟩
      · exact hocc ((suffix_of_matched hmatch).isInfix.trans (List.take_prefix _ _).isInfix)
      · exact absurd (htrue.symm.trans hfalse) (by simp)
  constructor
  · rintro ⟨hfound, hread⟩
    obtain ⟨pre', hfirst', hr⟩ := hread (hfound.2 hocc)
    rcases h with ⟨-, hmatch, -⟩ | ⟨hfalse, -⟩
    · rw [hr] at hmatch
      exact .inr ⟨pre', hfirst', (first_match_iff hfirst').1 hmatch⟩
    · exact absurd ((hfound.2 hocc).symm.trans hfalse) (by simp)
  · rintro (hnot | ⟨pre', hfirst', hp⟩)
    · exact absurd hocc hnot
    have hmatch' := (first_match_iff hfirst').2 hp
    rcases h with ⟨htrue, hmatch, hleast⟩ | ⟨-, hno⟩
    · refine ⟨iff_of_true htrue hocc, fun _ => ⟨pre', hfirst', ?_⟩⟩
      have hle := le_of_matched hfirst' hmatch
      by_contra hne
      exact hleast _ (by omega) hmatch'
    · have hend' : pre'.length + str.length ≤ received.length := by
        rw [← List.length_append]
        exact hfirst'.1.length_le
      exact absurd hmatch' (hno _ hend')

end Loop

/-- **When the pattern is found.** A call returns, and what it returns and reads is right if and only
if the pattern does not come, or the deadline does not wrap around and what comes before the first
occurrence of the pattern is made of pieces, each a beginning of the pattern followed by a byte with
which it does not go on. -/
theorem binfind_correct_iff (str : List Byte) (hstr : str ≠ []) (t : Word) (line : Line) :
    ∃ r, (∃ fuel₀, ∀ fuel, fuel₀ ≤ fuel → binfind str t line fuel = some r) ∧
      (Correct str line.received r ↔ ¬ str <:+: line.received ∨
        DeadlineOk t line ∧ ∃ pre, First str line.received pre ∧ Pieces str pre) := by
  by_cases hok : DeadlineOk t line
  · have hno : NoMatch str line.received (line.bytes 0).length := by
      intro m hm
      obtain rfl : m = 0 := Nat.le_zero.1 hm
      exact (List.length_pos_iff.2 hstr).ne
    obtain ⟨r, hr, hend⟩ := binfindLoop_spec hstr (fun k hk => before_of_deadlineOk hok hk)
      (Nat.zero_add line.rounds) hno
    refine ⟨r, ⟨line.rounds + 1, fun fuel hfuel => ?_⟩, ?_⟩
    · obtain ⟨extra, rfl⟩ := Nat.exists_eq_add_of_le' hfuel
      exact hr extra
    · simpa [hok] using correct_of_ended hend
  · refine ⟨(false, 0), ⟨1, fun fuel hfuel => ?_⟩, ?_⟩
    · obtain ⟨fuel, rfl⟩ : ∃ n, fuel = n + 1 := ⟨fuel - 1, by omega⟩
      rw [binfind, binfindLoop, not_before_of_not_deadlineOk hok]
      rfl
    · simp [Correct, hok]

/-! ### Calls -/

/-- A round in each millisecond, with the bytes of a text one after the other. -/
def everyMs (text : List Byte) : Line where
  elapsed k := k
  byte k := text[k]?
  first := by norm_num
  le_next k := Nat.le_succ k
  next_le _ := le_rfl
  unbounded n := ⟨n, le_rfl⟩

theorem receivedIn_everyMs {text : List Byte} {ms : ℕ} (h : text.length ≤ ms) :
    (everyMs text).receivedIn ms = text := by
  have hrounds : (everyMs text).roundsIn ms = ms :=
    (Nat.find_eq_iff _).2 ⟨le_rfl, fun _ hn => not_le.2 hn⟩
  have htake : ∀ n, (List.range n).filterMap (fun k => text[k]?) = text.take n := by
    intro n
    induction n with
    | zero => simp
    | succ n ih =>
      rw [List.range_succ, List.filterMap_append, ih, List.take_add_one]
      simp only [List.filterMap_cons, List.filterMap_nil]
      cases text[n]? with
      | none => rfl
      | some c => rfl
  rw [Line.receivedIn, hrounds]
  exact (htake ms).trans (List.take_of_length_le h)

theorem received_everyMs {text : List Byte} (h : text.length ≤ 5000) :
    (everyMs text).received = text :=
  receivedIn_everyMs h

/-- `"+IPD,4,48:"` -/
def ipd : List Byte := [0x2B, 0x49, 0x50, 0x44, 0x2C, 0x34, 0x2C, 0x34, 0x38, 0x3A]

/-- The answer that `loop()` waits for is found after `"OK\r\n"`. -/
theorem binfind_correct_iff_ipd :
    binfind ipd 0 (everyMs ([0x4F, 0x4B, 0x0D, 0x0A] ++ ipd)) 5001 = some (true, 14) ∧
      ∃ r, (∃ fuel₀, ∀ fuel, fuel₀ ≤ fuel →
          binfind ipd 0 (everyMs ([0x4F, 0x4B, 0x0D, 0x0A] ++ ipd)) fuel = some r) ∧
        (Correct ipd (everyMs ([0x4F, 0x4B, 0x0D, 0x0A] ++ ipd)).received r ↔
          ¬ ipd <:+: (everyMs ([0x4F, 0x4B, 0x0D, 0x0A] ++ ipd)).received ∨
          DeadlineOk 0 (everyMs ([0x4F, 0x4B, 0x0D, 0x0A] ++ ipd)) ∧
          ∃ pre, First ipd (everyMs ([0x4F, 0x4B, 0x0D, 0x0A] ++ ipd)).received pre ∧
            Pieces ipd pre) :=
  ⟨by decide +kernel, binfind_correct_iff ipd (by decide) 0 _⟩

/-- The answer is missed when there is one more `'+'` before it, and when the deadline has wrapped
around. -/
theorem binfind_misses_ipd :
    (binfind ipd 0 (everyMs (0x2B :: ipd)) 5001 = some (false, 11) ∧
      ¬ Correct ipd (everyMs (0x2B :: ipd)).received (false, 11)) ∧
    (binfind ipd 0xFFFFF000 (everyMs ipd) 5001 = some (false, 0) ∧
      ¬ Correct ipd (everyMs ipd).received (false, 0)) := by
  refine ⟨⟨by decide +kernel, fun h => ?_⟩, by decide +kernel, fun h => ?_⟩
  · rw [received_everyMs (by decide)] at h
    exact absurd (h.1.2 (List.suffix_cons _ _).isInfix) (by simp)
  · rw [received_everyMs (by decide)] at h
    exact absurd (h.1.2 List.infix_rfl) (by simp)

end EspNtp
