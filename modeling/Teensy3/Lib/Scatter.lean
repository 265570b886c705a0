import Mathlib.Data.List.Basic
import Mathlib.Logic.Function.Basic
import Mathlib.Tactic

/-!
# Walks through a memory

A memory is a function `m : α → β`.  A walk is a function `addr : ℕ → α` that says where element
`0`, `1`, `2`, … of a sequence goes: one address after another, round a ring, or in any other way.

* `put m addr bs`: the memory after the elements `bs` are stored along the walk, one by one;
* `get m addr n`: the first `n` elements along the walk;
* `put_append`, `get_add`: a long walk in two parts;
* `put_of_ne`, `put_apply`, `get_put`: what is stored where, if the walk does not meet itself.
-/

namespace Scatter

variable {α β : Type*} [DecidableEq α]

/-- Store the elements of a list along a walk. -/
def put (m : α → β) (addr : ℕ → α) : List β → α → β
  | [] => m
  | b :: bs => put (Function.update m (addr 0) b) (fun i => addr (i + 1)) bs

/-- The first `n` elements along a walk. -/
def get (m : α → β) (addr : ℕ → α) (n : ℕ) : List β := (List.range n).map fun i => m (addr i)

/-- The first `n` steps of a walk lead to different places. -/
def Simple (addr : ℕ → α) (n : ℕ) : Prop := ∀ i < n, ∀ j < n, addr i = addr j → i = j

section Get

omit [DecidableEq α]

@[simp] theorem length_get (m : α → β) (addr : ℕ → α) (n : ℕ) : (get m addr n).length = n := by
  simp [get]

theorem getElem_get {m : α → β} {addr : ℕ → α} {n i : ℕ} (h : i < (get m addr n).length) :
    (get m addr n)[i] = m (addr i) := by
  simp [get]

theorem get_congr {m m' : α → β} {addr addr' : ℕ → α} {n : ℕ}
    (h : ∀ i < n, m (addr i) = m' (addr' i)) : get m addr n = get m' addr' n :=
  List.map_congr_left fun i hi => h i (List.mem_range.1 hi)

theorem get_add (m : α → β) (addr : ℕ → α) (n k : ℕ) :
    get m addr (n + k) = get m addr n ++ get m (fun i => addr (n + i)) k := by
  simp [get, List.range_add, Function.comp_def]

theorem get_succ (m : α → β) (addr : ℕ → α) (n : ℕ) :
    get m addr (n + 1) = m (addr 0) :: get m (fun i => addr (i + 1)) n := by
  simp [get, List.range_succ_eq_map, Function.comp_def]

theorem Simple.tail {addr : ℕ → α} {n : ℕ} (h : Simple addr (n + 1)) :
    Simple (fun i => addr (i + 1)) n := by
  intro i hi j hj hij
  have := h (i + 1) (by omega) (j + 1) (by omega) hij
  omega

end Get

theorem put_append (m : α → β) (addr : ℕ → α) (bs cs : List β) :
    put m addr (bs ++ cs) = put (put m addr bs) (fun i => addr (bs.length + i)) cs := by
  induction bs generalizing m addr with
  | nil => simp [put]
  | cons b bs ih =>
    rw [List.cons_append, put, ih, put, List.length_cons]
    congr 1
    funext i
    rw [Nat.add_right_comm]

/-- Only the steps that are taken count. -/
theorem put_congr {m : α → β} {addr addr' : ℕ → α} {bs : List β}
    (h : ∀ i < bs.length, addr i = addr' i) : put m addr bs = put m addr' bs := by
  induction bs generalizing m addr addr' with
  | nil => rfl
  | cons b bs ih =>
    rw [List.length_cons] at h
    rw [put, put, h 0 (by omega), ih fun i hi => h (i + 1) (by omega)]

/-- Places that the walk does not come to keep what they have. -/
theorem put_of_ne {m : α → β} {addr : ℕ → α} {bs : List β} {x : α}
    (h : ∀ i < bs.length, addr i ≠ x) : put m addr bs x = m x := by
  induction bs generalizing m addr with
  | nil => rfl
  | cons b bs ih =>
    rw [List.length_cons] at h
    rw [put, ih fun i hi => h (i + 1) (by omega), Function.update_of_ne (h 0 (by omega)).symm]

/-- A change somewhere else may come before or after. -/
theorem put_update {m : α → β} {addr : ℕ → α} {bs : List β} {x : α} (v : β)
    (h : ∀ i < bs.length, addr i ≠ x) :
    put (Function.update m x v) addr bs = Function.update (put m addr bs) x v := by
  induction bs generalizing m addr with
  | nil => rfl
  | cons b bs ih =>
    rw [List.length_cons] at h
    rw [put, Function.update_comm (h 0 (by omega)).symm, ih fun i hi => h (i + 1) (by omega), put]

/-- Each place that the walk comes to has its element. -/
theorem put_apply {m : α → β} {addr : ℕ → α} {bs : List β} (h : Simple addr bs.length) {i : ℕ}
    (hi : i < bs.length) : put m addr bs (addr i) = bs[i] := by
  induction bs generalizing m addr i with
  | nil => simp at hi
  | cons b bs ih =>
    rw [List.length_cons] at h
    cases i with
    | zero =>
      -- the rest of the walk does not come back
      rw [put, put_of_ne, Function.update_self, List.getElem_cons_zero]
      intro j hj hback
      have := h (j + 1) (by omega) 0 (by omega) hback
      omega
    | succ i =>
      rw [put, List.getElem_cons_succ]
      exact ih h.tail (by simpa using hi)

/-- **Reading back** along the same walk. -/
theorem get_put {m : α → β} {addr : ℕ → α} {bs : List β} (h : Simple addr bs.length) :
    get (put m addr bs) addr bs.length = bs := by
  apply List.ext_getElem (by simp)
  intro i _ hi
  rw [getElem_get, put_apply h hi]

end Scatter
