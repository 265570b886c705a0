import Mathlib.Tactic
import Teensy3.Lib.ByteMem
import Teensy3.Lib.Restart
import Teensy3.Sketches.EspNtp

/-!
# Waiting for the end of an answer

`wait_for_esp_response` of `espntp.ino` puts all that comes from the WiFi module into `buffer`, until
the last bytes there are a given text or the time is over.  It does not look at the size of `buffer`,
and its deadline may wrap around as the one of `binfind` does.

* `strncmp`: the function of C, and when it is zero;
* `waitForEspResponse`: the function, with the indices at which it writes to `buffer`;
* `Exact`: what it should do, and `Fits`: when it does so.
-/

namespace EspNtp

open ByteMem Restart

/-- A string of C, without the null character at its end. -/
abbrev CString := { l : List Byte // 0#8 ∉ l }

/-- `BUFFER_SIZE` -/
def bufferSize : ℕ := 1024

/-- `strncmp`, of the first `n` characters that are there from either pointer on -/
def strncmp : List Byte → List Byte → ℤ
  | a :: as, b :: bs => if a ≠ b then a.toNat - b.toNat else if a = 0#8 then 0 else strncmp as bs
  | _, _ => 0

/-- The variables `i` and `buffer`, and the indices at which `buffer` has been written. -/
structure Scan where
  i : ℕ
  buffer : ℕ → Byte
  writes : List ℕ

/-- `buffer[i++]=c` -/
def Scan.put (s : Scan) (c : Byte) : Scan :=
  ⟨s.i + 1, Function.update s.buffer s.i c, s.writes ++ [s.i]⟩

/-- The loop from round `k` on. -/
def waitLoop (term : CString) (t timeout : Word) (line : Line) :
    (fuel k : ℕ) → Scan → Option (Bool × Scan)
  | 0, _, _ => none
  | fuel + 1, k, s =>
    if beforeDeadline t timeout line k then
      match line.byte k with
      | none => waitLoop term t timeout line fuel (k + 1) s
      | some c =>
        let s := s.put c
        let len := term.1.length
        if len ≤ s.i ∧ strncmp (read s.buffer (s.i - len) len) term.1 = 0 then some (true, s)
        else waitLoop term t timeout line fuel (k + 1) s
    else some (false, s)

/-- What a call returns and how many bytes it has read, with `buffer` and the writes to it. -/
structure Response where
  found : Bool
  read : ℕ
  buffer : ℕ → Byte
  writes : List ℕ

/-- `wait_for_esp_response`, called when `millis()` is `t` -/
def waitForEspResponse (timeout : Word) (term : CString) (t : Word) (line : Line) (buffer : ℕ → Byte)
    (fuel : ℕ) : Option Response := do
  let (found, s) ← waitLoop term t timeout line fuel 0 ⟨0, buffer, []⟩
  return ⟨found, s.i, Function.update s.buffer s.i 0, s.writes ++ [s.i]⟩

/-- All writes are inside of `buffer`; and the text is found if and only if it is there, and all has
then been read up to the end of its first occurrence. -/
def Exact (term stream : List Byte) (r : Response) : Prop :=
  (∀ w ∈ r.writes, w < bufferSize) ∧ Correct term stream (r.found, r.read)

/-- The text is not empty; and either it does not come, and all that comes fits into `buffer` unless
the deadline has wrapped around, or it does, in time, and fits with all that comes before it. -/
def Fits (t : Word) (line : Line) (ms : ℕ) (term stream : List Byte) : Prop :=
  term ≠ [] ∧ (¬ term <:+: stream ∧ (DeadlineIn t line ms → stream.length < bufferSize) ∨
    DeadlineIn t line ms ∧ ∃ pre, First term stream pre ∧ pre.length + term.length < bufferSize)

/-! ### The comparison -/

theorem strncmp_eq_zero_iff {as bs : List Byte} (hlength : as.length = bs.length) (hbs : 0#8 ∉ bs) :
    strncmp as bs = 0 ↔ as = bs := by
  induction bs generalizing as with
  | nil =>
    rw [List.length_eq_zero_iff.1 hlength]
    exact iff_of_true rfl rfl
  | cons b bs ih =>
    cases as with
    | nil => cases hlength
    | cons a as =>
      rw [List.mem_cons, not_or] at hbs
      have hrest := ih (Nat.succ.inj hlength) hbs.2
      rw [strncmp]
      by_cases hab : a = b
      · subst hab
        rw [if_neg (not_not.2 rfl), if_neg (Ne.symm hbs.1), hrest]
        simp
      · rw [if_pos hab]
        have hne : a.toNat ≠ b.toNat := fun heq => hab (BitVec.eq_of_toNat_eq heq)
        simp only [List.cons.injEq, hab, false_and, iff_false]
        omega

/-- The last bytes are the text. -/
theorem suffix_iff (term : CString) (buffer : ℕ → Byte) (i : ℕ) :
    term.1.length ≤ i ∧ strncmp (read buffer (i - term.1.length) term.1.length) term.1 = 0 ↔
      term.1 <:+ read buffer 0 i := by
  have hsplit : ∀ n, term.1.length + n = i →
      read buffer 0 i = read buffer 0 n ++ read buffer n term.1.length := by
    intro n hn
    rw [← hn, Nat.add_comm, read_add, Nat.zero_add]
  rw [strncmp_eq_zero_iff (length_read _ _ _) term.2]
  constructor
  · rintro ⟨hle, heq⟩
    rw [hsplit (i - term.1.length) (by omega), heq]
    exact List.suffix_append _ _
  · intro hsuffix
    have hle := hsuffix.length_le
    rw [length_read] at hle
    refine ⟨hle, ?_⟩
    rw [hsplit (i - term.1.length) (by omega)] at hsuffix
    have hlast : term.1 <:+ read buffer (i - term.1.length) term.1.length :=
      List.suffix_of_suffix_length_le hsuffix (List.suffix_append _ _) (length_read _ _ _).ge
    exact (hlast.eq_of_length (length_read _ _ _).symm).symm

/-! ### The loop -/

section Loop

variable {term : CString} {t timeout : Word} {line : Line} {ms : ℕ}

/-- The loop ends at the first byte after which the text is complete, or with the last one of all. -/
def Stopped (term stream : List Byte) (found : Bool) (read : ℕ) : Prop :=
  found = true ∧ 0 < read ∧ read ≤ stream.length ∧ term <:+ stream.take read ∧
      (∀ m < read, 0 < m → ¬ term <:+ stream.take m) ∨
    found = false ∧ read = stream.length ∧ ∀ m ≤ stream.length, 0 < m → ¬ term <:+ stream.take m

/-- The variables of the loop, when `bs` have come. -/
structure Scan.Holds (s : Scan) (bs : List Byte) : Prop where
  i : s.i = bs.length
  buffer : read s.buffer 0 s.i = bs
  writes : s.writes = List.range s.i

theorem holds_put {s : Scan} {bs : List Byte} (h : s.Holds bs) (c : Byte) :
    (s.put c).Holds (bs ++ [c]) := by
  refine ⟨?_, ?_, ?_⟩
  · change s.i + 1 = _
    rw [h.i, List.length_append]
    rfl
  · change read (Function.update s.buffer s.i c) 0 (s.i + 1) = _
    have hold : read (Function.update s.buffer s.i c) 0 s.i = read s.buffer 0 s.i :=
      read_congr fun j hj => Function.update_of_ne (by omega) _ _
    rw [read_add, hold, h.buffer]
    simp [ByteMem.read]
  · change s.writes ++ [s.i] = List.range (s.i + 1)
    rw [h.writes, List.range_succ]

/-- The bytes that have been read are the first ones of all. -/
theorem take_receivedIn {k : ℕ} (hk : k ≤ line.roundsIn ms) :
    (line.receivedIn ms).take (line.bytes k).length = line.bytes k :=
  (List.prefix_iff_eq_take.1 (bytes_mono hk)).symm

/-- **The loop** puts all bytes into `buffer`, and it ends in the rounds that are left. -/
theorem waitLoop_spec (htimeout : timeout.toNat = ms) (hms : 0 < ms) (hok : DeadlineIn t line ms)
    {m k : ℕ} (hk : k + m = line.roundsIn ms) {s : Scan} (hs : s.Holds (line.bytes k))
    (hno : ∀ n ≤ s.i, 0 < n → ¬ term.1 <:+ (line.receivedIn ms).take n) :
    ∃ found s', (∀ extra, waitLoop term t timeout line (extra + m + 1) k s = some (found, s')) ∧
      s'.writes = List.range s'.i ∧ Stopped term.1 (line.receivedIn ms) found s'.i := by
  induction m generalizing k s with
  | zero =>
    obtain rfl : k = line.roundsIn ms := hk
    have hall : s.i = (line.receivedIn ms).length := hs.i
    refine ⟨false, s, fun extra => ?_, hs.writes, .inr ⟨rfl, hall, fun n hn => hno n (by omega)⟩⟩
    rw [waitLoop, not_beforeDeadline_roundsIn t line htimeout hms]
    rfl
  | succ m ih =>
    have hlt : k < line.roundsIn ms := by
      omega
    have hnow := beforeDeadline_of_deadlineIn htimeout hok hlt
    cases hbyte : line.byte k with
    | none =>
      obtain ⟨found, s', hloop, hend⟩ :=
        ih (k := k + 1) (by omega) (by rwa [bytes_succ_none hbyte]) hno
      refine ⟨found, s', fun extra => ?_, hend⟩
      rw [waitLoop, hnow, if_pos rfl, hbyte]
      exact hloop extra
    | some c =>
      have hput : (s.put c).Holds (line.bytes (k + 1)) := by
        rw [bytes_succ_some hbyte]
        exact holds_put hs c
      have htake : (line.receivedIn ms).take (s.put c).i = line.bytes (k + 1) := by
        rw [hput.i]
        exact take_receivedIn hlt
      have hle : (s.put c).i ≤ (line.receivedIn ms).length := by
        rw [hput.i]
        exact (bytes_mono hlt).length_le
      have htest := suffix_iff term (s.put c).buffer (s.put c).i
      rw [hput.buffer, ← htake] at htest
      by_cases hmatch : term.1 <:+ (line.receivedIn ms).take (s.put c).i
      · refine ⟨true, s.put c, fun extra => ?_, hput.writes,
          .inl ⟨rfl, Nat.succ_pos s.i, hle, hmatch, fun n hn => hno n (Nat.le_of_lt_succ hn)⟩⟩
        rw [waitLoop, hnow, if_pos rfl, hbyte]
        exact if_pos (htest.2 hmatch)
      · obtain ⟨found, s', hloop, hend⟩ := ih (k := k + 1) (by omega) hput fun n hn hpos => by
          rcases Nat.lt_or_eq_of_le hn with hn | rfl
          · exact hno n (Nat.le_of_lt_succ hn) hpos
          · exact hmatch
        refine ⟨found, s', fun extra => ?_, hend⟩
        rw [waitLoop, hnow, if_pos rfl, hbyte]
        exact (if_neg fun hzero => hmatch (htest.1 hzero)).trans (hloop extra)

end Loop

/-! ### Calls -/

section Calls

variable {term stream : List Byte} {r : Response}

/-- With all writes from the first one to the terminating zero. -/
theorem bounded_iff (hwrites : r.writes = List.range (r.read + 1)) :
    (∀ w ∈ r.writes, w < bufferSize) ↔ r.read < bufferSize := by
  simp only [hwrites, List.mem_range]
  constructor
  · exact fun hall => hall r.read (Nat.lt_succ_self _)
  · exact fun hlt w hw => lt_of_le_of_lt (Nat.le_of_lt_succ hw) hlt

theorem not_suffix_take_zero (hterm : term ≠ []) (l : List Byte) : ¬ term <:+ l.take 0 := by
  rw [List.take_zero, List.suffix_nil]
  exact hterm

/-- Where the text is found. -/
theorem first_of_stopped (hterm : term ≠ []) (h : Stopped term stream r.found r.read)
    (hfound : r.found = true) : ∃ pre, First term stream pre ∧ r.read = pre.length + term.length := by
  rcases h with ⟨-, -, hle, hsuffix, hleast⟩ | ⟨hfalse, -⟩
  · refine first_of_least hle hsuffix fun m hm => ?_
    rcases Nat.eq_zero_or_pos m with rfl | hpos
    · exact not_suffix_take_zero hterm stream
    · exact hleast m hm hpos
  · exact absurd (hfound.symm.trans hfalse) (by simp)

theorem found_iff_of_stopped (hterm : term ≠ []) (h : Stopped term stream r.found r.read) :
    r.found = true ↔ term <:+: stream := by
  rw [infix_iff_exists_take]
  rcases h with ⟨htrue, -, hle, hsuffix, -⟩ | ⟨hfalse, -, hno⟩
  · exact iff_of_true htrue ⟨r.read, hle, hsuffix⟩
  · refine iff_of_false (by simp [hfalse]) ?_
    rintro ⟨n, hn, hsuffix⟩
    rcases Nat.eq_zero_or_pos n with rfl | hpos
    · exact not_suffix_take_zero hterm stream hsuffix
    · exact hno n hn hpos hsuffix

/-- The empty text is there from the beginning, but it is looked for only after a byte. -/
theorem not_exact_nil (h : Stopped [] stream r.found r.read) : ¬ Exact [] stream r := by
  rintro ⟨-, hfound, hread⟩
  have htrue : r.found = true := hfound.2 List.nil_infix
  obtain ⟨pre, hfirst, hlength⟩ := hread htrue
  rcases h with ⟨-, hpos, -⟩ | ⟨hfalse, -⟩
  · refine hfirst.2 0 ?_ List.nil_suffix
    change r.read = _ at hlength
    omega
  · exact absurd (htrue.symm.trans hfalse) (by simp)

/-- A call whose loop has ended in time. -/
theorem exact_iff_of_stopped (hwrites : r.writes = List.range (r.read + 1))
    (h : Stopped term stream r.found r.read) :
    Exact term stream r ↔ term ≠ [] ∧ (¬ term <:+: stream ∧ stream.length < bufferSize ∨
      ∃ pre, First term stream pre ∧ pre.length + term.length < bufferSize) := by
  by_cases hterm : term = []
  · subst hterm
    exact iff_of_false (not_exact_nil h) fun hne => hne.1 rfl
  have hfound := found_iff_of_stopped hterm h
  rw [Exact, bounded_iff hwrites]
  constructor
  · rintro ⟨hbound, -⟩
    refine ⟨hterm, ?_⟩
    by_cases hocc : term <:+: stream
    · obtain ⟨pre, hfirst, hread⟩ := first_of_stopped hterm h (hfound.2 hocc)
      exact .inr ⟨pre, hfirst, by rwa [← hread]⟩
    · rcases h with ⟨htrue, -⟩ | ⟨-, hread, -⟩
      · exact absurd (hfound.1 htrue) hocc
      · exact .inl ⟨hocc, by rwa [← hread]⟩
  · rintro ⟨-, ⟨hocc, hbound⟩ | ⟨pre, hfirst, hbound⟩⟩
    · refine ⟨?_, hfound, fun htrue => absurd (hfound.1 htrue) hocc⟩
      rcases h with ⟨htrue, -⟩ | ⟨-, hread, -⟩
      · exact absurd (hfound.1 htrue) hocc
      · rwa [hread]
    · have hocc : term <:+: stream := (List.suffix_append pre term).isInfix.trans hfirst.1.isInfix
      obtain ⟨pre', hfirst', hread⟩ := first_of_stopped hterm h (hfound.2 hocc)
      have hle := length_le_of_first hfirst' hfirst
      exact ⟨by omega, hfound, fun _ => ⟨pre', hfirst', hread⟩⟩

end Calls

/-- What a call does: its loop ends in time, or it is not entered. -/
theorem call_returns {timeout : Word} (hms : 0 < timeout.toNat) (term : CString) (t : Word) (line : Line)
    (buffer : ℕ → Byte) :
    ∃ r, (∃ fuel₀, ∀ fuel, fuel₀ ≤ fuel →
        waitForEspResponse timeout term t line buffer fuel = some r) ∧
      r.writes = List.range (r.read + 1) ∧
      (DeadlineIn t line timeout.toNat →
        Stopped term.1 (line.receivedIn timeout.toNat) r.found r.read) ∧
      (¬ DeadlineIn t line timeout.toNat → r.found = false ∧ r.read = 0) := by
  by_cases hok : DeadlineIn t line timeout.toNat
  · have hstart : (Scan.mk 0 buffer []).Holds (line.bytes 0) := ⟨rfl, rfl, rfl⟩
    have hno : ∀ n ≤ 0, 0 < n → ¬ term.1 <:+ (line.receivedIn timeout.toNat).take n :=
      fun n hn hpos => absurd hn (not_le.2 hpos)
    obtain ⟨found, s, hloop, hwrites, hstopped⟩ :=
      waitLoop_spec rfl hms hok (Nat.zero_add _) hstart hno
    refine ⟨⟨found, s.i, Function.update s.buffer s.i 0, s.writes ++ [s.i]⟩,
      ⟨line.roundsIn timeout.toNat + 1, fun fuel hfuel => ?_⟩, ?_, fun _ => hstopped,
      fun hnot => absurd hok hnot⟩
    · obtain ⟨extra, rfl⟩ := Nat.exists_eq_add_of_le' hfuel
      have hrun := hloop extra
      rw [Nat.add_assoc] at hrun
      rw [waitForEspResponse, hrun]
      rfl
    · rw [hwrites, List.range_succ]
  · refine ⟨⟨false, 0, Function.update buffer 0 0, [0]⟩, ⟨1, fun fuel hfuel => ?_⟩, rfl,
      fun hyes => absurd hyes hok, fun _ => ⟨rfl, rfl⟩⟩
    obtain ⟨fuel, rfl⟩ := Nat.exists_eq_add_of_le' hfuel
    rw [waitForEspResponse, waitLoop, not_beforeDeadline_of_not_deadlineIn rfl hok]
    rfl

/-- **When an answer is handled exactly.** A call returns; and all of its writes are inside of `buffer`,
and what it returns and reads is right, if and only if the text is not empty and either it does not
come, and fewer than 1024 bytes do in time, or it comes in time and ends before byte 1024. -/
theorem wait_for_esp_response_exact_iff (timeout : Word) (htimeout : 0 < timeout.toInt) (term : CString)
    (t : Word) (line : Line) (buffer : ℕ → Byte) :
    ∃ r, (∃ fuel₀, ∀ fuel, fuel₀ ≤ fuel →
        waitForEspResponse timeout term t line buffer fuel = some r) ∧
      (Exact term.1 (line.receivedIn timeout.toNat) r ↔
        Fits t line timeout.toNat term.1 (line.receivedIn timeout.toNat)) := by
  have hms : 0 < timeout.toNat := by
    rcases Nat.eq_zero_or_pos timeout.toNat with hzero | hpos
    · rw [BitVec.eq_of_toNat_eq (y := 0#32) hzero] at htimeout
      cases htimeout
    · exact hpos
  obtain ⟨r, hreturns, hwrites, hin, hout⟩ := call_returns hms term t line buffer
  refine ⟨r, hreturns, ?_⟩
  by_cases hok : DeadlineIn t line timeout.toNat
  · rw [exact_iff_of_stopped hwrites (hin hok), Fits]
    simp only [hok, true_imp_iff, true_and]
  · obtain ⟨hfalse, hread⟩ := hout hok
    constructor
    · rintro ⟨-, hfound, -⟩
      have hocc : ¬ term.1 <:+: line.receivedIn timeout.toNat := fun hocc =>
        absurd ((hfound.2 hocc).symm.trans hfalse) (by simp)
      exact ⟨fun hnil => hocc (hnil ▸ List.nil_infix), .inl ⟨hocc, fun hyes => absurd hyes hok⟩⟩
    · rintro ⟨-, ⟨hocc, -⟩ | ⟨hyes, -⟩⟩
      · refine ⟨(bounded_iff hwrites).2 ?_, iff_of_false (by simp [hfalse]) hocc, ?_⟩
        · rw [hread]
          decide
        · exact fun htrue => absurd (htrue.symm.trans hfalse) (by simp)
      · exact absurd hyes hok

/-- `OKrn` -/
def okrn : CString := ⟨[0x4F, 0x4B, 0x0D, 0x0A], by decide⟩

/-- `"AT\r\nOK\r\n"` -/
def answer : List Byte := [0x41, 0x54, 0x0D, 0x0A, 0x4F, 0x4B, 0x0D, 0x0A]

theorem wait_for_esp_response_exact_iff_answer :
    (waitForEspResponse 1000 okrn 0 (everyMs answer) (fun _ => 0) 1001).map
        (fun r => (r.found, r.read, r.writes)) = some (true, 8, [0, 1, 2, 3, 4, 5, 6, 7, 8]) ∧
      ∃ r, (∃ fuel₀, ∀ fuel, fuel₀ ≤ fuel →
          waitForEspResponse 1000 okrn 0 (everyMs answer) (fun _ => 0) fuel = some r) ∧
        (Exact okrn.1 ((everyMs answer).receivedIn (1000 : Word).toNat) r ↔
          Fits 0 (everyMs answer) (1000 : Word).toNat okrn.1
            ((everyMs answer).receivedIn (1000 : Word).toNat)) :=
  ⟨by decide +kernel, wait_for_esp_response_exact_iff 1000 (by decide) okrn 0 _ _⟩

/-- Bytes without the text, as many as there is room for in `buffer`. -/
def flood : List Byte := List.replicate 1024 0x2E

theorem okrn_not_in_flood : ¬ okrn.1 <:+: flood := by
  intro hocc
  have hmem : (0x4F : Byte) ∈ flood := hocc.subset List.mem_cons_self
  exact absurd (List.eq_of_mem_replicate hmem) (by decide)

/-- The terminating zero is written behind `buffer`; and what comes in time is missed when the deadline
has wrapped around. -/
theorem wait_for_esp_response_overruns :
    (∃ r fuel, waitForEspResponse 1500 okrn 0 (everyMs flood) (fun _ => 0) fuel = some r ∧
      1024 ∈ r.writes ∧ ¬ Exact okrn.1 ((everyMs flood).receivedIn 1500) r) ∧
    ∃ r, waitForEspResponse 1000 okrn 0xFFFFFF00 (everyMs answer) (fun _ => 0) 1 = some r ∧
      r.found = false ∧ ¬ Exact okrn.1 ((everyMs answer).receivedIn 1000) r := by
  constructor
  · obtain ⟨r, ⟨fuel, hreturns⟩, hwrites, hin, -⟩ := call_returns
      (by decide : 0 < (1500 : Word).toNat) okrn 0 (everyMs flood) fun _ => 0
    have hlength : flood.length ≤ 1500 := by
      rw [flood, List.length_replicate]
      norm_num
    have hstream : (everyMs flood).receivedIn 1500 = flood := receivedIn_everyMs hlength
    have hstopped : Stopped okrn.1 flood r.found r.read := by
      rw [← hstream]
      exact hin (.inl (by decide))
    have hread : r.read = 1024 := by
      rcases hstopped with ⟨-, -, hle, hsuffix, -⟩ | ⟨-, hread, -⟩
      · exact absurd (infix_iff_exists_take.2 ⟨r.read, hle, hsuffix⟩) okrn_not_in_flood
      · rw [hread, flood, List.length_replicate]
    have hmem : 1024 ∈ r.writes := by
      rw [hwrites, hread, List.mem_range]
      norm_num
    exact ⟨r, fuel, hreturns fuel le_rfl, hmem, fun hexact => absurd (hexact.1 1024 hmem) (by decide)⟩
  · have hstream : (everyMs answer).receivedIn 1000 = answer := receivedIn_everyMs (by decide)
    refine ⟨⟨false, 0, Function.update (fun _ => 0) 0 0, [0]⟩, rfl, rfl, ?_⟩
    rintro ⟨-, hfound, -⟩
    rw [hstream] at hfound
    exact absurd (hfound.2 (List.suffix_append _ _ : okrn.1 <:+ [0x41, 0x54, 0x0D, 0x0A] ++ okrn.1).isInfix)
      (by simp)

end EspNtp
