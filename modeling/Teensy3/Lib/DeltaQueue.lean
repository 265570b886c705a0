import Mathlib.Data.List.Basic
import Mathlib.Tactic

/-!
# Queues of relative times

A *delta queue* keeps events in the order in which they are due; each entry has the time from the
one before it.  Putting an event in or taking it out changes one neighbour, and letting the first
one happen changes none.

* `dues v q`: the queue with absolute times, if its first entry counts from time `v`;
* `insertAfter`, `remove`: the operations on relative times;
* `enqueue`: insertion into a queue of absolute times, behind all events that are due no later;
* `dues_insertAfter`, `dues_remove`: the operations on relative times are those on absolute ones.
-/

namespace DeltaQueue

variable {α : Type*}

/-- The absolute times of a delta queue whose first entry counts from `v`. -/
def dues (v : ℕ) : List (ℕ × α) → List (ℕ × α)
  | [] => []
  | (d, a) :: q => (v + d, a) :: dues (v + d) q

@[simp] theorem dues_nil (v : ℕ) : dues v ([] : List (ℕ × α)) = [] := rfl

@[simp] theorem dues_cons (v d : ℕ) (a : α) (q : List (ℕ × α)) :
    dues v ((d, a) :: q) = (v + d, a) :: dues (v + d) q := rfl

@[simp] theorem dues_eq_nil {v : ℕ} {q : List (ℕ × α)} : dues v q = [] ↔ q = [] := by
  rcases q with _ | ⟨⟨d, a⟩, q⟩
  · exact Iff.rfl
  · simp

/-! ### Insertion -/

/-- Insertion into a queue of absolute times, behind all events that are due at `t` or before. -/
def enqueue (t : ℕ) (a : α) : List (ℕ × α) → List (ℕ × α)
  | [] => [(t, a)]
  | e :: q => if t < e.1 then (t, a) :: e :: q else e :: enqueue t a q

/-- Insertion into a delta queue, `m` after the time that it counts from. -/
def insertAfter (m : ℕ) (a : α) : List (ℕ × α) → List (ℕ × α)
  | [] => [(m, a)]
  | (d, b) :: q => if m < d then (m, a) :: (d - m, b) :: q else (d, b) :: insertAfter (m - d) a q

theorem dues_insertAfter (v m : ℕ) (a : α) (q : List (ℕ × α)) :
    dues v (insertAfter m a q) = enqueue (v + m) a (dues v q) := by
  induction q generalizing v m with
  | nil => rfl
  | cons e q ih =>
    obtain ⟨d, b⟩ := e
    by_cases hm : m < d
    · have hd : v + m + (d - m) = v + d := by omega
      simp [insertAfter, enqueue, hm, hd]
    · have hd : v + d + (m - d) = v + m := by omega
      simp [insertAfter, enqueue, hm, ih, hd]

theorem enqueue_perm (t : ℕ) (a : α) (q : List (ℕ × α)) : (enqueue t a q).Perm ((t, a) :: q) := by
  induction q with
  | nil => exact List.Perm.refl _
  | cons e q ih =>
    rw [enqueue]
    split
    · exact List.Perm.refl _
    · exact (ih.cons e).trans (List.Perm.swap _ _ _)

@[simp] theorem mem_enqueue {t : ℕ} {a : α} {q : List (ℕ × α)} {x : ℕ × α} :
    x ∈ enqueue t a q ↔ x = (t, a) ∨ x ∈ q := by
  rw [(enqueue_perm t a q).mem_iff, List.mem_cons]

theorem map_enqueue {β : Type*} (f : α → β) (t : ℕ) (a : α) (q : List (ℕ × α)) :
    (enqueue t a q).map (fun x => (x.1, f x.2)) = enqueue t (f a) (q.map fun x => (x.1, f x.2)) := by
  induction q with
  | nil => rfl
  | cons e q ih =>
    simp only [enqueue, List.map_cons]
    split
    · rfl
    · rw [List.map_cons, ih]

/-- Events of a kind keep their order when one of another kind is put in. -/
theorem filter_enqueue_of_not {p : ℕ × α → Bool} {t : ℕ} {a : α} (ha : p (t, a) = false)
    (q : List (ℕ × α)) : (enqueue t a q).filter p = q.filter p := by
  induction q with
  | nil => simp [enqueue, ha]
  | cons e q ih =>
    rw [enqueue]
    split
    · rw [List.filter_cons_of_neg (by simp [ha])]
    · simp only [List.filter_cons, ih]

/-- The first event of its kind is the only one. -/
theorem filter_enqueue_of_none {p : ℕ × α → Bool} {t : ℕ} {a : α} (ha : p (t, a) = true)
    {q : List (ℕ × α)} (hq : q.filter p = []) : (enqueue t a q).filter p = [(t, a)] := by
  induction q with
  | nil => simp [enqueue, ha]
  | cons e q ih =>
    have he : p e = false := by
      by_contra he
      rw [List.filter_cons_of_pos (by simpa using he)] at hq
      exact List.cons_ne_nil _ _ hq
    rw [List.filter_cons_of_neg (by simp [he])] at hq
    rw [enqueue]
    split
    · rw [List.filter_cons_of_pos ha, List.filter_cons_of_neg (by simp [he]), hq]
    · rw [List.filter_cons_of_neg (by simp [he]), ih hq]

/-- If a new event comes after those that are due no later and before those that are due later,
the order of the queue is kept. -/
theorem pairwise_enqueue {r : ℕ × α → ℕ × α → Prop} {t : ℕ} {a : α} {q : List (ℕ × α)}
    (hsorted : q.Pairwise fun x y => x.1 ≤ y.1) (hr : q.Pairwise r)
    (hbefore : ∀ x ∈ q, x.1 ≤ t → r x (t, a)) (hafter : ∀ x ∈ q, t < x.1 → r (t, a) x) :
    (enqueue t a q).Pairwise r := by
  induction q with
  | nil => exact List.pairwise_singleton _ _
  | cons e q ih =>
    obtain ⟨he, hq⟩ := List.pairwise_cons.1 hsorted
    obtain ⟨hre, hrq⟩ := List.pairwise_cons.1 hr
    rw [enqueue]
    split
    · rename_i hlt
      refine List.pairwise_cons.2 ⟨fun x hx => hafter x hx ?_, hr⟩
      rcases List.mem_cons.1 hx with rfl | hx
      · exact hlt
      · exact hlt.trans_le (he x hx)
    · rename_i hle
      refine List.pairwise_cons.2 ⟨fun x hx => ?_, ?_⟩
      · rcases mem_enqueue.1 hx with rfl | hx
        · exact hbefore e List.mem_cons_self (not_lt.1 hle)
        · exact hre x hx
      · exact ih hq hrq (fun x hx => hbefore x (List.mem_cons_of_mem _ hx))
          (fun x hx => hafter x (List.mem_cons_of_mem _ hx))

/-! ### Removal -/

/-- The time of a removed entry goes to the one behind it. -/
def carry (d : ℕ) : List (ℕ × α) → List (ℕ × α)
  | [] => []
  | (e, b) :: q => (e + d, b) :: q

/-- Take out the first event with `p`. -/
def remove (p : α → Bool) : List (ℕ × α) → List (ℕ × α)
  | [] => []
  | (d, a) :: q => if p a then carry d q else (d, a) :: remove p q

theorem dues_carry (v d : ℕ) (q : List (ℕ × α)) : dues v (carry d q) = dues (v + d) q := by
  rcases q with _ | ⟨⟨e, b⟩, q⟩
  · rfl
  · have he : v + (e + d) = v + d + e := by omega
    simp only [carry, dues_cons, he]

theorem dues_remove (v : ℕ) (p : α → Bool) (q : List (ℕ × α)) :
    dues v (remove p q) = (dues v q).eraseP fun x => p x.2 := by
  induction q generalizing v with
  | nil => rfl
  | cons e q ih =>
    obtain ⟨d, a⟩ := e
    by_cases ha : p a
    · simp [remove, ha, dues_carry]
    · simp [remove, ha, ih]

end DeltaQueue
