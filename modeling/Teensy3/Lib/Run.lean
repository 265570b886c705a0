import Mathlib.Data.List.Basic
import Mathlib.Tactic

/-!
# Runs of event-driven machines

A machine is a total step function `step : σ → ε → σ` on a state type `σ`, driven by a list of
events.  An event that the machine is not ready for leaves the state alone, so a list of events
is an arbitrary interleaving of whatever the parties do.

* `run step s es`: the state after the events `es`;
* `run_induction`: a property kept by one step is kept by a whole run;
* `Along step C s es`: every event of `es` meets the condition `C` in the state in which it
  happens, with `along_induction`, `along_simulation`, for two machines, and `along_iff_forall`, for
  conditions on the events alone;
* `Always step P s es`: the property `P` holds in every state that the run goes through, and
  `always_iff_along`, which says for which runs;
* `trace step s inp n`: the state before input `n` of an endless stream of inputs, with
  `trace_until_along`, `trace_reaches` and `trace_not_falling` for what happens in it at some time.
-/

namespace Machine

variable {σ ε : Type*}

/-- The state after the events of a list, in order. -/
def run (step : σ → ε → σ) (s : σ) (es : List ε) : σ := es.foldl step s

@[simp] theorem run_nil (step : σ → ε → σ) (s : σ) : run step s [] = s := rfl

@[simp] theorem run_cons (step : σ → ε → σ) (s : σ) (e : ε) (es : List ε) :
    run step s (e :: es) = run step (step s e) es := rfl

theorem run_append (step : σ → ε → σ) (s : σ) (es fs : List ε) :
    run step s (es ++ fs) = run step (run step s es) fs :=
  List.foldl_append

/-- **The invariant rule.** What one step keeps, a run keeps. -/
theorem run_induction {step : σ → ε → σ} {P : σ → Prop} (hstep : ∀ s e, P s → P (step s e))
    {s : σ} (h : P s) (es : List ε) : P (run step s es) := by
  induction es generalizing s with
  | nil => exact h
  | cons e es ih => exact ih (hstep s e h)

/-- Every event meets `C` in the state in which it happens. -/
def Along (step : σ → ε → σ) (C : σ → ε → Prop) : σ → List ε → Prop
  | _, [] => True
  | s, e :: es => C s e ∧ Along step C (step s e) es

instance (step : σ → ε → σ) (C : σ → ε → Prop) [∀ s e, Decidable (C s e)] :
    ∀ s es, Decidable (Along step C s es)
  | _, [] => .isTrue trivial
  | s, e :: es =>
    have := instDecidableAlong step C (step s e) es
    inferInstanceAs (Decidable (C s e ∧ Along step C (step s e) es))

@[simp] theorem along_nil (step : σ → ε → σ) (C : σ → ε → Prop) (s : σ) :
    Along step C s [] ↔ True := Iff.rfl

@[simp] theorem along_cons (step : σ → ε → σ) (C : σ → ε → Prop) (s : σ) (e : ε) (es : List ε) :
    Along step C s (e :: es) ↔ C s e ∧ Along step C (step s e) es := Iff.rfl

/-- What holds along a run holds along its beginnings. -/
theorem Along.of_append {step : σ → ε → σ} {C : σ → ε → Prop} {s : σ} {es fs : List ε}
    (h : Along step C s (es ++ fs)) : Along step C s es := by
  induction es generalizing s with
  | nil => trivial
  | cons e es ih => exact ⟨h.1, ih h.2⟩

theorem Along.imp {step : σ → ε → σ} {C D : σ → ε → Prop} (hCD : ∀ s e, C s e → D s e) {s : σ}
    {es : List ε} (h : Along step C s es) : Along step D s es := by
  induction es generalizing s with
  | nil => trivial
  | cons e es ih => exact ⟨hCD s e h.1, ih h.2⟩

theorem along_append {step : σ → ε → σ} {C : σ → ε → Prop} {s : σ} {es fs : List ε} :
    Along step C s (es ++ fs) ↔ Along step C s es ∧ Along step C (run step s es) fs := by
  induction es generalizing s with
  | nil => simp
  | cons e es ih => simp only [List.cons_append, along_cons, run_cons, ih, and_assoc]

/-- **The invariant rule** for runs whose events meet a condition. -/
theorem along_induction {step : σ → ε → σ} {C : σ → ε → Prop} {P : σ → Prop}
    (hstep : ∀ s e, P s → C s e → P (step s e)) {s : σ} (h : P s) {es : List ε}
    (hC : Along step C s es) : P (run step s es) := by
  induction es generalizing s with
  | nil => exact h
  | cons e es ih => exact ih (hstep s e h hC.1) hC.2

/-- **The simulation rule.** If `f` takes the steps of one machine to those of another one, it takes
the runs to the runs. -/
theorem along_simulation {τ : Type*} {step : σ → ε → σ} {step' : τ → ε → τ} {f : σ → τ}
    {C : σ → ε → Prop} {P : σ → Prop}
    (hstep : ∀ s e, P s → C s e → step' (f s) e = f (step s e) ∧ P (step s e)) {s : σ} (h : P s)
    {es : List ε} (hC : Along step C s es) : run step' (f s) es = f (run step s es) := by
  induction es generalizing s with
  | nil => rfl
  | cons e es ih =>
    obtain ⟨heq, hP⟩ := hstep s e h hC.1
    rw [run_cons, run_cons, heq]
    exact ih hP hC.2

/-- If a step meets `C`, in states with the invariant `I`, depending on its event alone, and then
keeps `I`, so does a run on its events alone. -/
theorem along_iff_forall {step : σ → ε → σ} {C : σ → ε → Prop} {D : ε → Prop} {I : σ → Prop}
    (hC : ∀ s e, I s → (C s e ↔ D e)) (hI : ∀ s e, I s → D e → I (step s e)) {s : σ} (hs : I s)
    (es : List ε) : Along step C s es ↔ ∀ e ∈ es, D e := by
  induction es generalizing s with
  | nil => simp
  | cons e es ih =>
    rw [along_cons, hC s e hs, List.forall_mem_cons]
    exact and_congr_right fun he => ih (hI s e hs he)

/-- The property holds in every state of the run, the first and the last included. -/
def Always (step : σ → ε → σ) (P : σ → Prop) : σ → List ε → Prop
  | s, [] => P s
  | s, e :: es => P s ∧ Always step P (step s e) es

@[simp] theorem always_nil (step : σ → ε → σ) (P : σ → Prop) (s : σ) :
    Always step P s [] ↔ P s := Iff.rfl

@[simp] theorem always_cons (step : σ → ε → σ) (P : σ → Prop) (s : σ) (e : ε) (es : List ε) :
    Always step P s (e :: es) ↔ P s ∧ Always step P (step s e) es := Iff.rfl

theorem Always.head {step : σ → ε → σ} {P : σ → Prop} {s : σ} {es : List ε}
    (h : Always step P s es) : P s := by
  cases es with
  | nil => exact h
  | cons e es => exact h.1

/-- **The exact rule.** If in states with the invariant `I` a step keeps `P` exactly when it meets
`C`, then a run has `P` throughout exactly when all of its steps meet `C`. -/
theorem always_iff_along {step : σ → ε → σ} {C : σ → ε → Prop} {I P : σ → Prop}
    (hI : ∀ s e, I s → I (step s e)) (hstep : ∀ s e, I s → P s → (P (step s e) ↔ C s e))
    {s : σ} (hs : I s) (h : P s) (es : List ε) : Always step P s es ↔ Along step C s es := by
  induction es generalizing s with
  | nil => simpa using h
  | cons e es ih =>
    rw [always_cons, along_cons, ← hstep s e hs h]
    constructor
    · rintro ⟨-, hes⟩
      exact ⟨hes.head, (ih (hI s e hs) hes.head).1 hes⟩
    · rintro ⟨hnext, hes⟩
      exact ⟨h, (ih (hI s e hs) hnext).2 hes⟩

/-! ### Endless runs -/

/-- The state before input `n` of an endless stream of inputs. -/
def trace (step : σ → ε → σ) (s : σ) (inp : ℕ → ε) : ℕ → σ
  | 0 => s
  | n + 1 => step (trace step s inp n) (inp n)

theorem trace_succ (step : σ → ε → σ) (s : σ) (inp : ℕ → ε) (n : ℕ) :
    trace step s inp (n + 1) = step (trace step s inp n) (inp n) := rfl

/-- The beginning of an endless run. -/
theorem run_map_range (step : σ → ε → σ) (s : σ) (inp : ℕ → ε) (n : ℕ) :
    run step s ((List.range n).map inp) = trace step s inp n := by
  induction n with
  | zero => rfl
  | succ n ih => rw [List.range_succ, List.map_append, run_append, ih, trace_succ]; rfl

theorem along_map_range {step : σ → ε → σ} {C : σ → ε → Prop} {s : σ} {inp : ℕ → ε} {n : ℕ} :
    Along step C s ((List.range n).map inp) ↔ ∀ i < n, C (trace step s inp i) (inp i) := by
  induction n with
  | zero => simp
  | succ n ih =>
    rw [List.range_succ, List.map_append, along_append, ih, run_map_range]
    simp only [List.map_cons, List.map_nil, along_cons, along_nil, and_true, Nat.lt_succ_iff]
    constructor
    · rintro ⟨hlt, hn⟩ i hi
      rcases hi.lt_or_eq with hi | rfl
      · exact hlt i hi
      · exact hn
    · exact fun h => ⟨fun i hi => h i hi.le, h n le_rfl⟩

/-- **The invariant rule for endless runs**, along a condition on each step. -/
theorem trace_induction {step : σ → ε → σ} {C : σ → ε → Prop} {P : σ → Prop} {s : σ} {inp : ℕ → ε}
    (hstep : ∀ s e, P s → C s e → P (step s e)) (h : P s)
    (hC : ∀ n, C (trace step s inp n) (inp n)) (n : ℕ) : P (trace step s inp n) := by
  induction n with
  | zero => exact h
  | succ n ih => exact hstep _ _ ih (hC n)

/-- **Waiting.** If `Q` holds from some time on until `G` does, and a step of the kind `E` leads
from `Q` to `G`, the next step of this kind does; all steps meet `C`. -/
theorem trace_until_along {step : σ → ε → σ} {s : σ} {inp : ℕ → ε} {C E : σ → ε → Prop}
    {Q G : σ → Prop} (hC : ∀ n, C (trace step s inp n) (inp n))
    (hstep : ∀ s e, Q s → C s e → Q (step s e) ∨ G (step s e))
    (hE : ∀ s e, Q s → C s e → E s e → G (step s e)) {n : ℕ} (hn : Q (trace step s inp n))
    (hfair : ∃ m, n ≤ m ∧ E (trace step s inp m) (inp m)) : ∃ m, n < m ∧ G (trace step s inp m) := by
  obtain ⟨m, hm, hEm⟩ := hfair
  by_contra hnone
  have hQ : ∀ d, Q (trace step s inp (n + d)) := by
    intro d
    induction d with
    | zero => exact hn
    | succ d ih =>
      rcases hstep _ (inp (n + d)) ih (hC (n + d)) with hQ | hG
      · exact hQ
      · exact absurd ⟨n + d + 1, by omega, hG⟩ hnone
  have hQm := hQ (m - n)
  rw [Nat.add_sub_cancel' hm] at hQm
  exact hnone ⟨m + 1, by omega, hE _ _ hQm (hC m) hEm⟩

theorem trace_until {step : σ → ε → σ} {s : σ} {inp : ℕ → ε} {Q G : σ → Prop} {E : σ → ε → Prop}
    (hstep : ∀ s e, Q s → Q (step s e) ∨ G (step s e)) (hE : ∀ s e, Q s → E s e → G (step s e))
    {n : ℕ} (hn : Q (trace step s inp n))
    (hfair : ∃ m, n ≤ m ∧ E (trace step s inp m) (inp m)) : ∃ m, n < m ∧ G (trace step s inp m) :=
  trace_until_along (C := fun _ _ => True) (fun _ => trivial) (fun s e hQ _ => hstep s e hQ)
    (fun s e hQ _ => hE s e hQ) hn hfair

/-- **The termination rule.** A run that from time `n₀` on comes down in rank, as long as it has not
reached the goal `G`, reaches it. -/
theorem trace_reaches {step : σ → ε → σ} {s : σ} {inp : ℕ → ε} {G : σ → Prop} (rank : σ → ℕ) {n₀ : ℕ}
    (hdown : ∀ n, n₀ ≤ n → ¬ G (trace step s inp n) →
      ∃ m, n < m ∧ (G (trace step s inp m) ∨ rank (trace step s inp m) < rank (trace step s inp n))) :
    ∃ m, n₀ ≤ m ∧ G (trace step s inp m) := by
  have hreach : ∀ r n, n₀ ≤ n → rank (trace step s inp n) = r →
      ∃ m, n ≤ m ∧ G (trace step s inp m) := by
    intro r
    induction r using Nat.strong_induction_on with
    | _ r ih =>
      intro n hn hr
      by_cases hgoal : G (trace step s inp n)
      · exact ⟨n, le_rfl, hgoal⟩
      obtain ⟨m, hm, hdone | hless⟩ := hdown n hn hgoal
      · exact ⟨m, hm.le, hdone⟩
      · obtain ⟨k, hk, hdone⟩ := ih _ (hr ▸ hless) m (hn.trans hm.le) rfl
        exact ⟨k, hm.le.trans hk, hdone⟩
  exact hreach _ n₀ le_rfl rfl

/-- No rank that from time `n₀` on never goes up, and that goes down with every input of a kind, goes
on for ever, if there is always another input of this kind. -/
theorem trace_not_falling {step : σ → ε → σ} {s : σ} {inp : ℕ → ε} {E : ε → Prop} (rank : σ → ℕ)
    {n₀ : ℕ} (hfair : ∀ n, ∃ m, n ≤ m ∧ E (inp m))
    (hstep : ∀ n, n₀ ≤ n → rank (trace step s inp (n + 1)) < rank (trace step s inp n) ∨
      ¬ E (inp n) ∧ rank (trace step s inp (n + 1)) = rank (trace step s inp n)) : False := by
  have hle : ∀ n m, n₀ ≤ n → n ≤ m → rank (trace step s inp m) ≤ rank (trace step s inp n) := by
    intro n m hn hm
    induction m, hm using Nat.le_induction with
    | base => exact le_rfl
    | succ m hm ih =>
      rcases hstep m (hn.trans hm) with hlt | ⟨-, heq⟩
      · exact hlt.le.trans ih
      · exact heq.le.trans ih
  have hdown : ∀ n, n₀ ≤ n → ¬ False →
      ∃ m, n < m ∧ (False ∨ rank (trace step s inp m) < rank (trace step s inp n)) := by
    intro n hn _
    obtain ⟨m, hm, hE⟩ := hfair n
    have hlt := (hstep m (hn.trans hm)).resolve_right fun hstay => hstay.1 hE
    exact ⟨m + 1, by omega, .inr (hlt.trans_le (hle n m hn hm))⟩
  obtain ⟨-, -, hfalse⟩ := trace_reaches (G := fun _ => False) rank hdown
  exact hfalse

end Machine
