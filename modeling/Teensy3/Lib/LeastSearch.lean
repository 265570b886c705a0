import Mathlib.Tactic

/-!
# The search for a least key

A loop goes through a list, and keeps an element when its key is less than the least one so far.
Only some of the elements are allowed, and when the key of none of them is less than the key that the
loop starts with, it ends with what it starts with.

* `search`: the loop;
* `FirstLeast`: the first of the allowed elements with the least key, with `FirstLeast.le` and
  `FirstLeast.mem_of_append`;
* `search_cases`: what the loop ends with.
-/

namespace LeastSearch

variable {α κ : Type} [LinearOrder κ] (ok : α → Prop) (key : α → κ)

/-- The best element so far, with its key, at the end of the list. -/
def search [DecidablePred ok] (best : κ × α) (ss : List α) : κ × α :=
  ss.foldl (fun best s => if ok s ∧ key s < best.1 then (key s, s) else best) best

/-- No allowed element of the list has a lesser key than `s`, and none in front of it has the same. -/
def FirstLeast (s : α) (ss : List α) : Prop :=
  ∃ l t, ss = l ++ s :: t ∧ ok s ∧ (∀ x ∈ l, ok x → key s < key x) ∧ ∀ x ∈ t, ok x → key s ≤ key x

namespace FirstLeast

variable {ok key} {s x : α} {ss : List α}

theorem mem (h : FirstLeast ok key s ss) : s ∈ ss := by
  obtain ⟨l, t, rfl, -⟩ := h
  exact List.mem_append_right l List.mem_cons_self

theorem allowed (h : FirstLeast ok key s ss) : ok s := by
  obtain ⟨l, t, -, hok, -⟩ := h
  exact hok

theorem le (h : FirstLeast ok key s ss) (hx : x ∈ ss) (hok : ok x) : key s ≤ key x := by
  obtain ⟨l, t, rfl, -, hl, ht⟩ := h
  rcases List.mem_append.1 hx with hx | hx
  · exact (hl x hx hok).le
  · rcases List.mem_cons.1 hx with rfl | hx
    · exact le_rfl
    · exact ht x hx hok

theorem cons {a : α} (h : FirstLeast ok key s ss) (ha : ok a → key s < key a) :
    FirstLeast ok key s (a :: ss) := by
  obtain ⟨l, t, rfl, hok, hl, ht⟩ := h
  refine ⟨a :: l, t, rfl, hok, ?_, ht⟩
  intro x hx hokx
  rcases List.mem_cons.1 hx with rfl | hx
  · exact ha hokx
  · exact hl x hx hokx

/-- A part at the front of the list that has an element with the same key has the first one. -/
theorem mem_of_append {l' t' : List α} (h : FirstLeast ok key s (l' ++ t')) (hx : x ∈ l')
    (hok : ok x) (hkey : key x ≤ key s) : s ∈ l' := by
  obtain ⟨l, t, happend, -, hl, -⟩ := h
  have hnot : x ∉ l := fun hx => absurd (hl x hx hok) hkey.not_gt
  rcases List.append_eq_append_iff.1 happend with ⟨as, rfl, -⟩ | ⟨as, rfl, htail⟩
  · exact absurd (List.mem_append_left as hx) hnot
  · cases as with
    | nil => exact absurd (by simpa using hx) hnot
    | cons a as =>
      obtain ⟨rfl, -⟩ := List.cons.inj htail
      exact List.mem_append_right l List.mem_cons_self

end FirstLeast

variable [DecidablePred ok]

/-- **The result of the search** is what it starts with, if no allowed key is less than that, and
otherwise the first element with the least key. -/
theorem search_cases (best : κ × α) (ss : List α) :
    (search ok key best ss = best ∧ ∀ s ∈ ss, ok s → best.1 ≤ key s) ∨
      ∃ s, FirstLeast ok key s ss ∧ key s < best.1 ∧ search ok key best ss = (key s, s) := by
  induction ss generalizing best with
  | nil => exact .inl ⟨rfl, fun s hs => absurd hs List.not_mem_nil⟩
  | cons a ss ih =>
    by_cases ha : ok a ∧ key a < best.1
    · have hstep : search ok key best (a :: ss) = search ok key (key a, a) ss := by
        rw [search, List.foldl_cons, if_pos ha]
        rfl
      rw [hstep]
      rcases ih (key a, a) with ⟨hsame, hle⟩ | ⟨s, hs, hlt, hsearch⟩
      · refine .inr ⟨a, ⟨[], ss, rfl, ha.1, ?_, hle⟩, ha.2, hsame⟩
        exact fun x hx => absurd hx List.not_mem_nil
      · exact .inr ⟨s, hs.cons fun _ => hlt, hlt.trans ha.2, hsearch⟩
    · have hstep : search ok key best (a :: ss) = search ok key best ss := by
        rw [search, List.foldl_cons, if_neg ha]
        rfl
      have hge : ok a → best.1 ≤ key a := fun hok => not_lt.1 fun hlt => ha ⟨hok, hlt⟩
      rw [hstep]
      rcases ih best with ⟨hsame, hle⟩ | ⟨s, hs, hlt, hsearch⟩
      · refine .inl ⟨hsame, fun s hs hok => ?_⟩
        rcases List.mem_cons.1 hs with rfl | hs
        · exact hge hok
        · exact hle s hs hok
      · exact .inr ⟨s, hs.cons fun hok => hlt.trans_le (hge hok), hlt, hsearch⟩

end LeastSearch
