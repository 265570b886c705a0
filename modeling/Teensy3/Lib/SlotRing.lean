import Mathlib.Data.List.Basic
import Mathlib.Data.Nat.ModEq
import Mathlib.Tactic

/-!
# Rings of slots with an ownership mark

A ring of `n` slots is filled by a producer and emptied by a consumer.  Each side walks the ring
with an index of its own; the two never look at each other's index and agree only through a mark
on every slot that says whether the slot is full.

* `SlotRing n α`: the marks, the data of the slots, the consumer's index `head` and the
  producer's index `tail`;
* `Pushes r a r'`: the producer fills the empty slot at `tail` with `a`;
* `Pops r a r'`: the consumer empties the full slot at `head`, which holds `a`;
* `Inv`: the full slots are exactly the ones from `head` on, up to `tail`;
* `held r`: the data of the full slots in the order in which the consumer will meet them.

`inv_push`, `held_push`, `inv_pop` and `held_pop` say that the ring is a first-in first-out queue
of capacity `n`, the full and the empty ring included (where the two indices coincide and only
the marks tell the cases apart).
-/

/-- A ring of slots, of which those below `n` count. -/
structure SlotRing (n : ℕ) (α : Type*) where
  full : ℕ → Bool
  data : ℕ → α
  head : ℕ
  tail : ℕ

namespace SlotRing

variable {n : ℕ} {α : Type*} {r r' : SlotRing n α} {a : α}

/-! ### Walking round the ring -/

/-- The index after `i`, as code with a branch at the last entry computes it. -/
def next (n i : ℕ) : ℕ := if i < n - 1 then i + 1 else 0

theorem next_eq_mod {i : ℕ} (h : i < n) : next n i = (i + 1) % n := by
  unfold next
  split_ifs with hi
  · rw [Nat.mod_eq_of_lt (by omega)]
  · rw [show i + 1 = n by omega, Nat.mod_self]

theorem next_lt {i : ℕ} (h : i < n) : next n i < n := by
  rw [next_eq_mod h]
  exact Nat.mod_lt _ (by omega)

/-- Slots at different distances below `n` are different. -/
theorem mod_inj {i j k : ℕ} (hj : j < n) (hk : k < n) (h : (i + j) % n = (i + k) % n) : j = k := by
  have hmod : j ≡ k [MOD n] := Nat.ModEq.add_left_cancel' i h
  rwa [Nat.ModEq, Nat.mod_eq_of_lt hj, Nat.mod_eq_of_lt hk] at hmod

/-- A walk of less than a full turn does not come back to its start. -/
theorem mod_ne_start {i j : ℕ} (hi : i < n) (hj : j + 1 < n) : (i + (j + 1)) % n ≠ i := by
  intro h
  have : j + 1 = 0 := mod_inj hj (by omega) (by rw [h, Nat.add_zero, Nat.mod_eq_of_lt hi])
  omega

/-- Every slot lies at some distance from every other. -/
theorem exists_mod_eq {i m : ℕ} (hi : i < n) (hm : m < n) : ∃ j < n, (i + j) % n = m := by
  rcases Nat.lt_or_ge m i with h | h
  · refine ⟨m + n - i, by omega, ?_⟩
    rw [show i + (m + n - i) = m + n by omega, Nat.add_mod_right, Nat.mod_eq_of_lt hm]
  · refine ⟨m - i, by omega, ?_⟩
    rw [show i + (m - i) = m by omega, Nat.mod_eq_of_lt hm]

theorem filter_range {p : ℕ → Bool} {k : ℕ} (hk : k ≤ n) (h : ∀ j < n, p j = true ↔ j < k) :
    (List.range n).filter p = List.range k := by
  rw [← Nat.add_sub_cancel' hk, List.range_add, List.filter_append, List.filter_eq_self.2,
    List.filter_eq_nil_iff.2, List.append_nil]
  · intro j hj
    obtain ⟨i, hi, rfl⟩ := List.mem_map.1 hj
    have := List.mem_range.1 hi
    rw [h _ (by omega)]
    omega
  · intro j hj
    have := List.mem_range.1 hj
    exact (h j (by omega)).2 this

/-! ### The invariant and the contents -/

/-- The slots at distance below `k` from `head` are full, the others empty, and the producer is
at distance `k`. -/
structure Count (r : SlotRing n α) (k : ℕ) : Prop where
  le : k ≤ n
  head_lt : r.head < n
  tail_eq : r.tail = (r.head + k) % n
  full_iff : ∀ j < n, r.full ((r.head + j) % n) = true ↔ j < k

/-- The full slots are the ones from `head` up to `tail`. -/
def Inv (r : SlotRing n α) : Prop := ∃ k, Count r k

/-- The data of the full slots, in the order of the consumer's walk. -/
def held (r : SlotRing n α) : List α :=
  ((List.range n).filter fun j => r.full ((r.head + j) % n)).map fun j => r.data ((r.head + j) % n)

theorem Inv.head_lt (h : Inv r) : r.head < n := by
  obtain ⟨k, hk⟩ := h
  exact hk.head_lt

theorem Inv.tail_lt (h : Inv r) : r.tail < n := by
  obtain ⟨k, hk⟩ := h
  rw [hk.tail_eq]
  exact Nat.mod_lt _ (by have := hk.head_lt; omega)

/-- With the marks in order the filter of `held` cuts off a segment. -/
theorem Count.held_eq {k : ℕ} (h : Count r k) :
    held r = (List.range k).map fun j => r.data ((r.head + j) % n) := by
  rw [held, filter_range h.le h.full_iff]

theorem Count.tail_not_full {k : ℕ} (h : Count r k) : r.full r.tail = false ↔ k < n := by
  rcases Nat.lt_or_ge k n with hk | hk
  · have := h.full_iff k hk
    simp_all [h.tail_eq]
  · obtain rfl : k = n := le_antisymm h.le hk
    have hn : 0 < k := lt_of_le_of_lt (Nat.zero_le _) h.head_lt
    have hfull := (h.full_iff 0 hn).2 hn
    rw [h.tail_eq, Nat.add_mod_right]
    simpa using hfull

theorem Count.head_full {k : ℕ} (h : Count r k) : r.full r.head = true ↔ 0 < k := by
  have := h.full_iff 0 (by have := h.head_lt; omega)
  rwa [Nat.add_zero, Nat.mod_eq_of_lt h.head_lt] at this

/-- A full slot at `head` holds the first element. -/
theorem held_eq_cons (h : Inv r) (hf : r.full r.head = true) :
    ∃ l, held r = r.data r.head :: l := by
  obtain ⟨k, hk⟩ := h
  obtain ⟨k, rfl⟩ : ∃ m, k = m + 1 := ⟨k - 1, by have := hk.head_full.1 hf; omega⟩
  have hheld := hk.held_eq
  rw [List.range_succ_eq_map, List.map_cons, Nat.add_zero, Nat.mod_eq_of_lt hk.head_lt] at hheld
  exact ⟨_, hheld⟩

/-- If anything is held, the slot at `head` is full. -/
theorem head_full_of_held (h : Inv r) (hne : held r ≠ []) : r.full r.head = true := by
  obtain ⟨k, hk⟩ := h
  rw [hk.head_full]
  by_contra hzero
  rw [hk.held_eq, show k = 0 by omega] at hne
  exact hne rfl

/-- The empty ring, wherever the two indices stand. -/
theorem count_zero (hlt : r.head < n) (htail : r.tail = r.head) (h : ∀ i < n, r.full i = false) :
    Count r 0 where
  le := Nat.zero_le _
  head_lt := hlt
  tail_eq := by rw [htail, Nat.add_zero, Nat.mod_eq_of_lt hlt]
  full_iff j _ := by simp [h _ (Nat.mod_lt _ (lt_of_le_of_lt (Nat.zero_le _) hlt))]

/-! ### The two operations -/

/-- `r'` differs from `r`, as far as the two sides can tell, at most in slot `m`. -/
def SameBut (m : ℕ) (r r' : SlotRing n α) : Prop :=
  ∀ i < n, i ≠ m → r'.full i = r.full i ∧ (r.full i = true → r'.data i = r.data i)

/-- The producer fills the empty slot at `tail` with `a`. -/
structure Pushes (r : SlotRing n α) (a : α) (r' : SlotRing n α) : Prop where
  empty : r.full r.tail = false
  filled : r'.full r.tail = true
  data_eq : r'.data r.tail = a
  tail_eq : r'.tail = next n r.tail
  head_eq : r'.head = r.head
  frame : SameBut r.tail r r'

/-- The consumer empties the full slot at `head`, which holds `a`. -/
structure Pops (r : SlotRing n α) (a : α) (r' : SlotRing n α) : Prop where
  full : r.full r.head = true
  emptied : r'.full r.head = false
  data_eq : r.data r.head = a
  head_eq : r'.head = next n r.head
  tail_eq : r'.tail = r.tail
  frame : SameBut r.head r r'

/-- Nothing happens that either side could see. -/
structure Same (r r' : SlotRing n α) : Prop where
  head_eq : r'.head = r.head
  tail_eq : r'.tail = r.tail
  frame : ∀ i < n, r'.full i = r.full i ∧ (r.full i = true → r'.data i = r.data i)

theorem Count.push {k : ℕ} (h : Count r k) (hp : Pushes r a r') : Count r' (k + 1) where
  le := h.tail_not_full.1 hp.empty
  head_lt := hp.head_eq ▸ h.head_lt
  tail_eq := by
    have hlt : r.tail < n := Inv.tail_lt ⟨k, h⟩
    rw [hp.tail_eq, hp.head_eq, next_eq_mod hlt, h.tail_eq, Nat.mod_add_mod, Nat.add_assoc]
  full_iff j hj := by
    have hk : k < n := h.tail_not_full.1 hp.empty
    have hlt : (r.head + j) % n < n := Nat.mod_lt _ (by omega)
    rw [hp.head_eq]
    rcases eq_or_ne j k with rfl | hne
    · rw [← h.tail_eq, hp.filled]
      simp
    · have hslot : (r.head + j) % n ≠ r.tail := by
        rw [h.tail_eq]
        exact fun he => hne (mod_inj hj hk he)
      rw [(hp.frame _ hlt hslot).1, h.full_iff j hj]
      omega

theorem inv_push (h : Inv r) (hp : Pushes r a r') : Inv r' := by
  obtain ⟨k, hk⟩ := h
  exact ⟨k + 1, hk.push hp⟩

/-- A pushed element goes to the end of the queue. -/
theorem held_push (h : Inv r) (hp : Pushes r a r') : held r' = held r ++ [a] := by
  obtain ⟨k, hk⟩ := h
  have hkn : k < n := hk.tail_not_full.1 hp.empty
  rw [(hk.push hp).held_eq, hk.held_eq, List.range_succ, List.map_append, hp.head_eq]
  congr 1
  · apply List.map_congr_left
    intro j hj
    have hjk := List.mem_range.1 hj
    have hslot : (r.head + j) % n ≠ r.tail := by
      rw [hk.tail_eq]
      exact fun he => hjk.ne (mod_inj (by omega) hkn he)
    exact (hp.frame _ (Nat.mod_lt _ (by omega)) hslot).2 ((hk.full_iff j (by omega)).2 hjk)
  · simp [← hk.tail_eq, hp.data_eq]

theorem Count.pop {k : ℕ} (h : Count r (k + 1)) (hp : Pops r a r') : Count r' k where
  le := by have := h.le; omega
  head_lt := by
    rw [hp.head_eq]
    exact next_lt h.head_lt
  tail_eq := by
    rw [hp.tail_eq, hp.head_eq, h.tail_eq, next_eq_mod h.head_lt, Nat.mod_add_mod,
      Nat.add_right_comm, Nat.add_assoc]
  full_iff j hj := by
    have hn : 0 < n := by omega
    rw [hp.head_eq, next_eq_mod h.head_lt, Nat.mod_add_mod, Nat.add_assoc, Nat.add_comm 1 j]
    rcases Nat.lt_or_ge (j + 1) n with hj' | hj'
    · rw [(hp.frame _ (Nat.mod_lt _ hn) (mod_ne_start h.head_lt hj')).1, h.full_iff _ hj']
      omega
    · -- the walk has come round to the slot that was just emptied
      rw [show r.head + (j + 1) = r.head + n by omega, Nat.add_mod_right,
        Nat.mod_eq_of_lt h.head_lt, hp.emptied]
      have := h.le
      simp
      omega

theorem inv_pop (h : Inv r) (hp : Pops r a r') : Inv r' := by
  obtain ⟨k, hk⟩ := h
  obtain ⟨k, rfl⟩ : ∃ m, k = m + 1 := ⟨k - 1, by have := hk.head_full.1 hp.full; omega⟩
  exact ⟨k, hk.pop hp⟩

/-- The element that is popped was the first of the queue. -/
theorem held_pop (h : Inv r) (hp : Pops r a r') : held r = a :: held r' := by
  obtain ⟨k, hk⟩ := h
  obtain ⟨k, rfl⟩ : ∃ m, k = m + 1 := ⟨k - 1, by have := hk.head_full.1 hp.full; omega⟩
  have hle := hk.le
  rw [hk.held_eq, (hk.pop hp).held_eq, List.range_succ_eq_map, List.map_cons, Nat.add_zero,
    Nat.mod_eq_of_lt hk.head_lt, hp.data_eq, List.map_map]
  congr 1
  apply List.map_congr_left
  intro j hj
  have hjk := List.mem_range.1 hj
  have hdata := (hp.frame _ (Nat.mod_lt _ (by omega)) (mod_ne_start hk.head_lt (by omega))).2
    ((hk.full_iff (j + 1) (by omega)).2 (by omega))
  rw [Function.comp_apply, hp.head_eq, next_eq_mod hk.head_lt, Nat.mod_add_mod, Nat.add_assoc,
    Nat.add_comm 1 j, hdata]

theorem Count.same {k : ℕ} (h : Count r k) (hs : Same r r') : Count r' k where
  le := h.le
  head_lt := hs.head_eq ▸ h.head_lt
  tail_eq := by rw [hs.tail_eq, hs.head_eq, h.tail_eq]
  full_iff j hj := by
    rw [hs.head_eq, (hs.frame _ (Nat.mod_lt _ (by omega))).1, h.full_iff j hj]

theorem inv_same (h : Inv r) (hs : Same r r') : Inv r' := by
  obtain ⟨k, hk⟩ := h
  exact ⟨k, hk.same hs⟩

theorem held_same (h : Inv r) (hs : Same r r') : held r' = held r := by
  obtain ⟨k, hk⟩ := h
  rw [(hk.same hs).held_eq, hk.held_eq, hs.head_eq]
  apply List.map_congr_left
  intro j hj
  have hjk := List.mem_range.1 hj
  have hle := hk.le
  exact (hs.frame _ (Nat.mod_lt _ (by omega))).2 ((hk.full_iff j (by omega)).2 hjk)

/-- The producer finds its slot full only if every slot is full; the consumer then stands at the
same slot. -/
theorem tail_full_iff (h : Inv r) :
    r.full r.tail = true ↔ r.tail = r.head ∧ ∀ i < n, r.full i = true := by
  obtain ⟨k, hk⟩ := h
  constructor
  · intro hfull
    have hkn : ¬ k < n := by
      rw [← hk.tail_not_full, hfull]
      simp
    obtain rfl : k = n := le_antisymm hk.le (not_lt.1 hkn)
    refine ⟨?_, fun i hi => ?_⟩
    · rw [hk.tail_eq, Nat.add_mod_right, Nat.mod_eq_of_lt hk.head_lt]
    · obtain ⟨j, hj, rfl⟩ := exists_mod_eq hk.head_lt hi
      exact (hk.full_iff j hj).2 hj
  · rintro ⟨-, hall⟩
    exact hall _ (Inv.tail_lt ⟨k, hk⟩)

end SlotRing
