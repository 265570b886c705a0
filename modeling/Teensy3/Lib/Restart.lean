import Mathlib.Data.List.Infix
import Mathlib.Tactic

/-!
# Matching with a restart

A pattern is looked for in a stream with one counter, the number of its elements that have matched.
At a mismatch the counter starts from zero, and the element that did not match is not looked at
again.

* `next`, `matched`: the counter after an element and after a list;
* `suffix_of_matched`: a match is never wrong;
* `Pieces`: lists after which the counter is zero, and `matched_eq_zero_iff`;
* `matched_append_eq_length_iff`: when an occurrence of the pattern is found;
* `First`: the first occurrence, and `first_of_least` for a search that ends with it.
-/

namespace Restart

variable {α : Type*} [DecidableEq α] (pattern : List α)

/-- The counter after one more element. -/
def next (i : ℕ) (c : α) : ℕ := if pattern[i]? = some c then i + 1 else 0

/-- The counter after a list. -/
def matched (l : List α) : ℕ := l.foldl (next pattern) 0

/-- Lists that are made of pieces, each of them a beginning of the pattern followed by an element with
which it does not go on. -/
inductive Pieces : List α → Prop
  | nil : Pieces []
  | snoc {l : List α} {k : ℕ} {c : α} : Pieces l → k ≤ pattern.length → pattern[k]? ≠ some c →
      Pieces (l ++ (pattern.take k ++ [c]))

/-- `before` is what comes before the first occurrence of the pattern. -/
def First (l before : List α) : Prop :=
  before ++ pattern <+: l ∧ ∀ n < before.length + pattern.length, ¬ pattern <:+ l.take n

variable {pattern}

theorem matched_append_singleton (l : List α) (c : α) :
    matched pattern (l ++ [c]) = next pattern (matched pattern l) c := by
  simp [matched]

theorem next_of_eq {i : ℕ} {c : α} (h : pattern[i]? = some c) : next pattern i c = i + 1 := if_pos h

theorem next_of_ne {i : ℕ} {c : α} (h : pattern[i]? ≠ some c) : next pattern i c = 0 := if_neg h

omit [DecidableEq α] in
theorem take_succ_of_getElem? {i : ℕ} {c : α} (h : pattern[i]? = some c) :
    pattern.take (i + 1) = pattern.take i ++ [c] := by
  rw [List.take_add_one, h]
  rfl

/-- What has matched is at the end of the list, after some pieces. -/
theorem exists_pieces (pattern l : List α) : matched pattern l ≤ pattern.length ∧
    ∃ q, Pieces pattern q ∧ l = q ++ pattern.take (matched pattern l) := by
  induction l using List.reverseRecOn with
  | nil => exact ⟨Nat.zero_le _, [], .nil, rfl⟩
  | append_singleton l c ih =>
    obtain ⟨hle, q, hq, hl⟩ := ih
    rw [matched_append_singleton]
    by_cases h : pattern[matched pattern l]? = some c
    · rw [next_of_eq h, take_succ_of_getElem? h]
      exact ⟨(List.getElem?_eq_some_iff.1 h).1, q, hq, by rw [← List.append_assoc, ← hl]⟩
    · rw [next_of_ne h]
      refine ⟨Nat.zero_le _, _, hq.snoc hle h, ?_⟩
      rw [List.take_zero, List.append_nil, ← List.append_assoc, ← hl]

/-- A match is never wrong. -/
theorem suffix_of_matched {l : List α} (h : matched pattern l = pattern.length) : pattern <:+ l := by
  obtain ⟨-, q, -, hl⟩ := exists_pieces pattern l
  rw [h, List.take_length] at hl
  exact ⟨q, hl.symm⟩

/-- From zero on, the counter goes along with the pattern. -/
theorem matched_append_take {l : List α} (h : matched pattern l = 0) {k : ℕ}
    (hk : k ≤ pattern.length) : matched pattern (l ++ pattern.take k) = k := by
  induction k with
  | zero => rwa [List.take_zero, List.append_nil]
  | succ k ih =>
    have hget : pattern[k]? = some (pattern.get ⟨k, hk⟩) := List.getElem?_eq_getElem hk
    rw [take_succ_of_getElem? hget, ← List.append_assoc, matched_append_singleton,
      ih (by omega), next_of_eq hget]

/-- The counter is zero exactly after pieces. -/
theorem matched_eq_zero_iff (l : List α) : matched pattern l = 0 ↔ Pieces pattern l := by
  constructor
  · intro h
    obtain ⟨-, q, hq, hl⟩ := exists_pieces pattern l
    rw [h, List.take_zero, List.append_nil] at hl
    rwa [hl]
  · intro h
    induction h with
    | nil => rfl
    | snoc _ hk hne ih =>
      rw [← List.append_assoc, matched_append_singleton, matched_append_take ih hk, next_of_ne hne]

/-- The counter grows by one at a time, so that it was smaller before. -/
theorem matched_take_of_matched (pattern : List α) {l : List α} {n : ℕ} (hn : n < l.length)
    (h : matched pattern (l.take (n + 1)) ≠ 0) :
    matched pattern (l.take (n + 1)) = matched pattern (l.take n) + 1 := by
  have htake : l.take (n + 1) = l.take n ++ [l.get ⟨n, hn⟩] := by
    rw [List.take_add_one, List.getElem?_eq_getElem hn]
    rfl
  rw [htake, matched_append_singleton] at h ⊢
  unfold next at h ⊢
  split at h
  · next heq => rw [if_pos heq]
  · exact absurd rfl h

/-- **When an occurrence is found**: if and only if the counter is zero where it begins. -/
theorem matched_append_eq_length_iff (l : List α) :
    matched pattern (l ++ pattern) = pattern.length ↔ Pieces pattern l := by
  rw [← matched_eq_zero_iff]
  constructor
  · intro h
    -- going back over the pattern, the counter goes down by one for each element
    have hback : ∀ k ≤ pattern.length, matched pattern (l ++ pattern.take k) = k := by
      intro k hk
      induction hk using Nat.decreasingInduction with
      | self => rwa [List.take_length]
      | of_succ k hk ih =>
        have hpre : ∀ j ≤ pattern.length, (l ++ pattern).take (l.length + j) = l ++ pattern.take j := by
          intro j _
          rw [List.take_length_add_append]
        have hlt : l.length + k < (l ++ pattern).length := by
          rw [List.length_append]
          omega
        have hstep := matched_take_of_matched pattern hlt
        rw [Nat.add_assoc, hpre (k + 1) hk, hpre k hk.le, ih] at hstep
        have := hstep (Nat.succ_ne_zero k)
        omega
    have hzero := hback 0 (Nat.zero_le _)
    rwa [List.take_zero, List.append_nil] at hzero
  · intro h
    have hall := matched_append_take h le_rfl
    rwa [List.take_length] at hall

/-! ### The first occurrence -/

omit [DecidableEq α] in
theorem take_of_first {l before : List α} (h : First pattern l before) :
    l.take (before.length + pattern.length) = before ++ pattern := by
  rw [← List.length_append]
  exact (List.prefix_iff_eq_take.1 h.1).symm

/-- **The first match** is the first occurrence, if and only if there are pieces before it. -/
theorem first_match_iff {l before : List α} (h : First pattern l before) :
    matched pattern (l.take (before.length + pattern.length)) = pattern.length ↔
      Pieces pattern before := by
  rw [take_of_first h, matched_append_eq_length_iff]

/-- There is no match before the first occurrence. -/
theorem le_of_matched {l before : List α} (h : First pattern l before) {n : ℕ}
    (hn : matched pattern (l.take n) = pattern.length) : before.length + pattern.length ≤ n := by
  by_contra hlt
  exact h.2 n (not_le.1 hlt) (suffix_of_matched hn)

omit [DecidableEq α] in
theorem infix_iff_exists_take {l : List α} : pattern <:+: l ↔ ∃ n ≤ l.length, pattern <:+ l.take n := by
  constructor
  · rintro ⟨p, q, rfl⟩
    refine ⟨(p ++ pattern).length, by simp, ?_⟩
    rw [List.take_left]
    exact List.suffix_append p pattern
  · rintro ⟨n, -, hn⟩
    exact hn.isInfix.trans (List.take_prefix n l).isInfix

omit [DecidableEq α] in
/-- Where the pattern is complete for the first time. -/
theorem first_of_least {l : List α} {n : ℕ} (hn : n ≤ l.length) (h : pattern <:+ l.take n)
    (hleast : ∀ m < n, ¬ pattern <:+ l.take m) :
    ∃ before, First pattern l before ∧ n = before.length + pattern.length := by
  obtain ⟨before, hbefore⟩ := h
  have hlength : n = before.length + pattern.length := by
    rw [← List.length_append, hbefore, List.length_take, Nat.min_eq_left hn]
  refine ⟨before, ⟨?_, fun m hm => hleast m (by omega)⟩, hlength⟩
  rw [hbefore]
  exact List.take_prefix n l

omit [DecidableEq α] in
theorem length_le_of_first {l before before' : List α} (h : First pattern l before)
    (h' : First pattern l before') : before.length ≤ before'.length := by
  by_contra hlt
  refine h.2 (before'.length + pattern.length) (by omega) ?_
  rw [take_of_first h']
  exact List.suffix_append before' pattern

end Restart
