import Mathlib.Logic.Relation
import Mathlib.Tactic
import Teensy3.Lib.Run

/-!
# Programs that access the registers of a device

A driver is a program that reads and writes registers, and that waits for a register to have some
value.  While it runs the device changes, at any moment, on its own.

* `Prog P R V α`: a program with results in `α`; `P` has the points of the program at which it is
  before each access, `R` the registers and `V` their values.  It is a tree, so the only way in
  which it does not return is that a `poll` goes on for ever;
* `Device`, `step`: a device, and the machine of a program together with a device, in which
  accesses and events are interleaved;
* `Safe`: what holds in every run of a program whose steps meet a condition, with the rules
  `safe_read`, `safe_write`, `safe_poll` and `safe_bind`, and `safe_step` for the runs;
* `Avoids r`: the program never writes to `r`, and `safe_of_avoids`: what it keeps then;
* `trace_done`: a program all of whose polls end returns;
* `clear`: registers whose bits are cleared by writing ones to them;
* `eval`: what a program returns, given the values that it reads, and `eval_answers`, which says
  that these are all that the device can do to it; `Post` for what holds of every result.
-/

namespace RegProgram

open Machine

/-- A program; `poll p r stop k` reads `r` until `stop` holds of the value. -/
inductive Prog (P R V α : Type)
  | done (a : α)
  | read (p : P) (r : R) (k : V → Prog P R V α)
  | write (p : P) (r : R) (v : V) (k : Prog P R V α)
  | poll (p : P) (r : R) (stop : V → Bool) (k : V → Prog P R V α)

variable {P R V E W α β : Type}

namespace Prog

/-- First `x`, then the program for its result. -/
def bind (x : Prog P R V α) (f : α → Prog P R V β) : Prog P R V β :=
  match x with
  | done a => f a
  | read p r k => .read p r fun v => (k v).bind f
  | write p r v k => .write p r v (k.bind f)
  | poll p r stop k => .poll p r stop fun v => (k v).bind f

instance : Monad (Prog P R V) where
  pure := done
  bind := bind

@[simp] theorem pure_eq (a : α) : (pure a : Prog P R V α) = done a := rfl

@[simp] theorem bind_eq (x : Prog P R V α) (f : α → Prog P R V β) : x >>= f = x.bind f := rfl

@[simp] theorem done_bind (a : α) (f : α → Prog P R V β) : (done a).bind f = f a := rfl

@[simp] theorem read_bind (p : P) (r : R) (k : V → Prog P R V α) (f : α → Prog P R V β) :
    (read p r k).bind f = read p r fun v => (k v).bind f := rfl

@[simp] theorem write_bind (p : P) (r : R) (v : V) (k : Prog P R V α) (f : α → Prog P R V β) :
    (write p r v k).bind f = write p r v (k.bind f) := rfl

@[simp] theorem poll_bind (p : P) (r : R) (stop : V → Bool) (k : V → Prog P R V α)
    (f : α → Prog P R V β) : (poll p r stop k).bind f = poll p r stop fun v => (k v).bind f := rfl

theorem bind_assoc {γ : Type} (x : Prog P R V α) (f : α → Prog P R V β) (g : β → Prog P R V γ) :
    (x.bind f).bind g = x.bind fun a => (f a).bind g := by
  induction x with
  | done a => rfl
  | read p r k ih => simp only [read_bind, ih]
  | write p r v k ih => simp only [write_bind, ih]
  | poll p r stop k ih => simp only [poll_bind, ih]

/-- `x = r` -/
def load (p : P) (r : R) : Prog P R V V := .read p r .done

/-- `r = v` -/
def store (p : P) (r : R) (v : V) : Prog P R V Unit := .write p r v (.done ())

/-- `do x = r; while (!stop(x))` -/
def await (p : P) (r : R) (stop : V → Bool) : Prog P R V V := .poll p r stop .done

/-- `r = f(r)`, an access to read the register and one to write it. -/
def update (p q : P) (r : R) (f : V → V) : Prog P R V Unit := .read p r fun v => store q r (f v)

@[simp] theorem load_bind (p : P) (r : R) (f : V → Prog P R V β) :
    (load p r).bind f = .read p r f := rfl

@[simp] theorem store_bind (p : P) (r : R) (v : V) (f : Unit → Prog P R V β) :
    (store p r v).bind f = .write p r v (f ()) := rfl

@[simp] theorem await_bind (p : P) (r : R) (stop : V → Bool) (f : V → Prog P R V β) :
    (await p r stop).bind f = .poll p r stop f := rfl

@[simp] theorem update_bind (p q : P) (r : R) (g : V → V) (f : Unit → Prog P R V β) :
    (update p q r g).bind f = .read p r fun v => .write q r (g v) (f ()) := rfl

/-- `while (!stop(r)) if (++tries > n) return false; return true`.  The point of an access has
the number of tries that are left after it. -/
def awaitFor (p : ℕ → P) (r : R) (stop : V → Bool) : ℕ → Prog P R V Bool
  | 0 => .read (p 0) r fun v => .done (stop v)
  | n + 1 => .read (p (n + 1)) r fun v => if stop v then .done true else awaitFor p r stop n

/-- The point at which a program is. -/
def point : Prog P R V α → Option P
  | done _ => none
  | read p _ _ => some p
  | write p _ _ _ => some p
  | poll p _ _ _ => some p

/-- The result of a program that has returned. -/
def result : Prog P R V α → Option α
  | done a => some a
  | _ => none

@[simp] theorem result_eq_some {x : Prog P R V α} {a : α} : x.result = some a ↔ x = .done a := by
  cases x <;> simp [result]

end Prog

/-! ### The program and its device -/

/-- A device.  The value that is read from a register may depend on what is on the bus. -/
structure Device (R V E W : Type) where
  answer : R → V → W → V
  onRead : R → V → W → W
  onWrite : R → V → W → W
  onEvent : E → W → W

/-- The next access of the program, with what is on the bus, or an event of the device. -/
inductive Step (V E : Type)
  | cpu (bus : V)
  | event (e : E)
  deriving DecidableEq

/-- One step.  When the program has returned nothing happens any more. -/
def step (d : Device R V E W) (c : Prog P R V α × W) : Step V E → Prog P R V α × W
  | .cpu bus =>
    match c.1 with
    | .done _ => c
    | .read _ r k => (k (d.answer r bus c.2), d.onRead r (d.answer r bus c.2) c.2)
    | .write _ r v k => (k, d.onWrite r v c.2)
    | .poll _ r stop k =>
      (if stop (d.answer r bus c.2) then k (d.answer r bus c.2) else c.1,
        d.onRead r (d.answer r bus c.2) c.2)
  | .event e =>
    match c.1 with
    | .done _ => c
    | _ => (c.1, d.onEvent e c.2)

/-- What is on the bus when the program has its first turn. -/
def firstBus : List (Step V E) → Option V
  | [] => none
  | .cpu bus :: _ => some bus
  | .event _ :: es => firstBus es

section Step

variable (d : Device R V E W)

@[simp] theorem step_done (a : α) (w : W) (e : Step V E) :
    step d ((.done a : Prog P R V α), w) e = (.done a, w) := by
  cases e <;> rfl

theorem step_event {x : Prog P R V α} (hx : x.result = none) (w : W) (e : E) :
    step d (x, w) (.event e) = (x, d.onEvent e w) := by
  cases x with
  | done a => simp [Prog.result] at hx
  | _ => rfl

theorem run_done (a : α) (w : W) (es : List (Step V E)) :
    run (step d) ((.done a : Prog P R V α), w) es = (.done a, w) := by
  induction es with
  | nil => rfl
  | cons e es ih => rw [run_cons, step_done, ih]

variable {d}

/-- A run that ends begins with the first access of the program. -/
theorem run_read {p : P} {r : R} {k : V → Prog P R V α} {w w' : W} {es : List (Step V E)} {a : α}
    (h : run (step d) (.read p r k, w) es = (.done a, w')) :
    ∃ bus w₁ es', firstBus es = some bus ∧
      run (step d) (k (d.answer r bus w₁), d.onRead r (d.answer r bus w₁) w₁) es' = (.done a, w') := by
  induction es generalizing w with
  | nil => cases h
  | cons e es ih =>
    cases e with
    | cpu bus => exact ⟨bus, w, es, rfl, h⟩
    | event e => exact ih h

end Step

/-! ### What holds in every run -/

section Safe

variable (d : Device R V E W) (C : P → W → Step V E → Prop)

/-- What an event that meets the condition does while the program is at `p`. -/
def Moves (p : P) (w w' : W) : Prop := ∃ e, C p w (.event e) ∧ w' = d.onEvent e w

/-- The same for a program that waits at `p`: it may also find that it has to go on waiting. -/
def Waits (p : P) (r : R) (stop : V → Bool) (w w' : W) : Prop :=
  Moves d C p w w' ∨ ∃ bus, C p w (.cpu bus) ∧ stop (d.answer r bus w) = false ∧
    w' = d.onRead r (d.answer r bus w) w

/-- In every run whose steps meet `C`, `J` holds at each access, `K` wherever the program waits, and
`Q` of the result. -/
def Safe (J : P → W → Prop) (K : P → R → (V → Bool) → W → Prop) (Q : α → W → Prop) :
    Prog P R V α → W → Prop
  | .done a, w => Q a w
  | .read p r k, w => ∀ w', Relation.ReflTransGen (Moves d C p) w w' → J p w' ∧
      ∀ bus, C p w' (.cpu bus) →
        Safe J K Q (k (d.answer r bus w')) (d.onRead r (d.answer r bus w') w')
  | .write p r v k, w => ∀ w', Relation.ReflTransGen (Moves d C p) w w' → J p w' ∧
      ∀ bus, C p w' (.cpu bus) → Safe J K Q k (d.onWrite r v w')
  | .poll p r stop k, w => ∀ w', Relation.ReflTransGen (Waits d C p r stop) w w' → K p r stop w' ∧
      ∀ bus, C p w' (.cpu bus) → stop (d.answer r bus w') = true →
        Safe J K Q (k (d.answer r bus w')) (d.onRead r (d.answer r bus w') w')

variable {d C} {J : P → W → Prop} {K : P → R → (V → Bool) → W → Prop} {Q : α → W → Prop}

@[simp] theorem safe_done {a : α} {w : W} : Safe d C J K Q (.done a) w ↔ Q a w := Iff.rfl

/-- What every step of a relation keeps, its closure keeps. -/
theorem inv_of_star {r : W → W → Prop} {I : W → Prop} (hI : ∀ w w', I w → r w w' → I w') {w w' : W}
    (hw : I w) (h : Relation.ReflTransGen r w w') : I w' := by
  induction h with
  | refl => exact hw
  | tail _ hstep ih => exact hI _ _ ih hstep

/-- **The rule for reading**, with an assertion `I` that events keep. -/
theorem safe_read (I : W → Prop) {p : P} {r : R} {k : V → Prog P R V α} {w : W} (hw : I w)
    (hev : ∀ w e, I w → C p w (.event e) → I (d.onEvent e w)) (hJ : ∀ w, I w → J p w)
    (hk : ∀ w bus, I w → C p w (.cpu bus) →
      Safe d C J K Q (k (d.answer r bus w)) (d.onRead r (d.answer r bus w) w)) :
    Safe d C J K Q (.read p r k) w := by
  intro w' hstar
  have hw' : I w' := inv_of_star (by rintro w _ hI ⟨e, he, rfl⟩; exact hev w e hI he) hw hstar
  exact ⟨hJ w' hw', fun bus hC => hk w' bus hw' hC⟩

/-- **The rule for writing.** -/
theorem safe_write (I : W → Prop) {p : P} {r : R} {v : V} {k : Prog P R V α} {w : W} (hw : I w)
    (hev : ∀ w e, I w → C p w (.event e) → I (d.onEvent e w)) (hJ : ∀ w, I w → J p w)
    (hk : ∀ w bus, I w → C p w (.cpu bus) → Safe d C J K Q k (d.onWrite r v w)) :
    Safe d C J K Q (.write p r v k) w := by
  intro w' hstar
  have hw' : I w' := inv_of_star (by rintro w _ hI ⟨e, he, rfl⟩; exact hev w e hI he) hw hstar
  exact ⟨hJ w' hw', fun bus hC => hk w' bus hw' hC⟩

/-- **The rule for waiting**: the assertion is also kept by a try that fails. -/
theorem safe_poll (I : W → Prop) {p : P} {r : R} {stop : V → Bool} {k : V → Prog P R V α} {w : W}
    (hw : I w) (hev : ∀ w e, I w → C p w (.event e) → I (d.onEvent e w)) (hK : ∀ w, I w → K p r stop w)
    (hgo : ∀ w bus, I w → C p w (.cpu bus) → stop (d.answer r bus w) = false →
      I (d.onRead r (d.answer r bus w) w))
    (hk : ∀ w bus, I w → C p w (.cpu bus) → stop (d.answer r bus w) = true →
      Safe d C J K Q (k (d.answer r bus w)) (d.onRead r (d.answer r bus w) w)) :
    Safe d C J K Q (.poll p r stop k) w := by
  intro w' hstar
  have hw' : I w' := by
    refine inv_of_star ?_ hw hstar
    rintro w _ hI (⟨e, he, rfl⟩ | ⟨bus, hC, hstop, rfl⟩)
    · exact hev w e hI he
    · exact hgo w bus hI hC hstop
  exact ⟨hK w' hw', fun bus hC hstop => hk w' bus hw' hC hstop⟩

/-- While events do nothing, the state is known. -/
theorem safe_read_of_still {p : P} {r : R} {k : V → Prog P R V α} {w : W}
    (hstill : ∀ e, d.onEvent e w = w) (hJ : J p w)
    (hk : ∀ bus, C p w (.cpu bus) →
      Safe d C J K Q (k (d.answer r bus w)) (d.onRead r (d.answer r bus w) w)) :
    Safe d C J K Q (.read p r k) w := by
  refine safe_read (· = w) rfl ?_ ?_ ?_
  · rintro _ e rfl _
    exact hstill e
  · rintro _ rfl
    exact hJ
  · rintro _ bus rfl hC
    exact hk bus hC

theorem safe_write_of_still {p : P} {r : R} {v : V} {k : Prog P R V α} {w : W}
    (hstill : ∀ e, d.onEvent e w = w) (hJ : J p w)
    (hk : Safe d C J K Q k (d.onWrite r v w)) : Safe d C J K Q (.write p r v k) w := by
  refine safe_write (· = w) rfl ?_ ?_ ?_
  · rintro _ e rfl _
    exact hstill e
  · rintro _ rfl
    exact hJ
  · rintro _ bus rfl _
    exact hk

theorem safe_poll_of_still {p : P} {r : R} {stop : V → Bool} {k : V → Prog P R V α} {w : W}
    (hstill : ∀ e, d.onEvent e w = w) (hread : ∀ v, d.onRead r v w = w) (hK : K p r stop w)
    (hk : ∀ bus, stop (d.answer r bus w) = true → Safe d C J K Q (k (d.answer r bus w)) w) :
    Safe d C J K Q (.poll p r stop k) w := by
  refine safe_poll (· = w) rfl ?_ ?_ ?_ ?_
  · rintro _ e rfl _
    exact hstill e
  · rintro _ rfl
    exact hK
  · rintro _ bus rfl _ _
    exact hread _
  · rintro _ bus rfl _ hstop
    rw [hread]
    exact hk bus hstop

/-- **The rule of consequence.** -/
theorem Safe.imp {J' : P → W → Prop} {K' : P → R → (V → Bool) → W → Prop} {Q' : α → W → Prop}
    (hJ : ∀ p w, J p w → J' p w) (hK : ∀ p r stop w, K p r stop w → K' p r stop w)
    (hQ : ∀ a w, Q a w → Q' a w) {x : Prog P R V α} {w : W} (h : Safe d C J K Q x w) :
    Safe d C J' K' Q' x w := by
  induction x generalizing w with
  | done a => exact hQ a w h
  | read p r k ih =>
    exact fun w' hs => ⟨hJ _ _ (h w' hs).1, fun bus hC => ih _ ((h w' hs).2 bus hC)⟩
  | write p r v k ih =>
    exact fun w' hs => ⟨hJ _ _ (h w' hs).1, fun bus hC => ih ((h w' hs).2 bus hC)⟩
  | poll p r stop k ih =>
    exact fun w' hs =>
      ⟨hK _ _ _ _ (h w' hs).1, fun bus hC hstop => ih _ ((h w' hs).2 bus hC hstop)⟩

theorem Safe.mono {Q' : α → W → Prop} (hQ : ∀ a w, Q a w → Q' a w) {x : Prog P R V α} {w : W}
    (h : Safe d C J K Q x w) : Safe d C J K Q' x w :=
  h.imp (fun _ _ hJ => hJ) (fun _ _ _ _ hK => hK) hQ

/-- What holds where the program is may be weakened. -/
theorem Safe.weaken {J' : P → W → Prop} {K' : P → R → (V → Bool) → W → Prop}
    (hJ : ∀ p w, J p w → J' p w) (hK : ∀ p r stop w, K p r stop w → K' p r stop w)
    {x : Prog P R V α} {w : W} (h : Safe d C J K Q x w) : Safe d C J' K' Q x w :=
  h.imp hJ hK fun _ _ hQ => hQ

/-- Nothing is required of any program. -/
theorem safe_trivial (x : Prog P R V α) (w : W) :
    Safe d C (fun _ _ => True) (fun _ _ _ _ => True) (fun _ _ => True) x w := by
  induction x generalizing w with
  | done a => trivial
  | read p r k ih => exact fun w' _ => ⟨trivial, fun bus _ => ih _ _⟩
  | write p r v k ih => exact fun w' _ => ⟨trivial, fun bus _ => ih _⟩
  | poll p r stop k ih => exact fun w' _ => ⟨trivial, fun bus _ _ => ih _ _⟩

/-- **The rule for sequences.** -/
theorem safe_bind {Q' : β → W → Prop} {x : Prog P R V α} {f : α → Prog P R V β} {w : W}
    (h : Safe d C J K (fun a w => Safe d C J K Q' (f a) w) x w) : Safe d C J K Q' (x.bind f) w := by
  induction x generalizing w with
  | done a => exact h
  | read p r k ih => exact fun w' hs => ⟨(h w' hs).1, fun bus hC => ih _ ((h w' hs).2 bus hC)⟩
  | write p r v k ih => exact fun w' hs => ⟨(h w' hs).1, fun bus hC => ih ((h w' hs).2 bus hC)⟩
  | poll p r stop k ih =>
    exact fun w' hs => ⟨(h w' hs).1, fun bus hC hstop => ih _ ((h w' hs).2 bus hC hstop)⟩

/-- **The rule for waiting with a limit**: a try may succeed, it may fail and leave others, and the
last one may fail. -/
theorem safe_awaitFor (I : W → Prop) {Q : Bool → W → Prop} {p : ℕ → P} {r : R} {stop : V → Bool}
    (hev : ∀ n w e, I w → C (p n) w (.event e) → I (d.onEvent e w))
    (hJ : ∀ n w, I w → J (p n) w)
    (hstop : ∀ n w bus, I w → C (p n) w (.cpu bus) → stop (d.answer r bus w) = true →
      Q true (d.onRead r (d.answer r bus w) w))
    (hgo : ∀ n w bus, I w → C (p n) w (.cpu bus) → stop (d.answer r bus w) = false →
      I (d.onRead r (d.answer r bus w) w))
    (hend : ∀ w bus, I w → C (p 0) w (.cpu bus) → stop (d.answer r bus w) = false →
      Q false (d.onRead r (d.answer r bus w) w))
    (n : ℕ) {w : W} (hw : I w) : Safe d C J K Q (.awaitFor p r stop n) w := by
  induction n generalizing w with
  | zero =>
    refine safe_read I hw (hev 0) (hJ 0) fun w bus hI hC => ?_
    rw [safe_done]
    cases hs : stop (d.answer r bus w) with
    | false => exact hend w bus hI hC hs
    | true => exact hstop 0 w bus hI hC hs
  | succ n ih =>
    refine safe_read I hw (hev _) (hJ _) fun w bus hI hC => ?_
    split
    · next hs => exact hstop _ w bus hI hC hs
    · next hs => exact ih (hgo _ w bus hI hC (by simpa using hs))

/-- A wait whose first try succeeds. -/
theorem safe_awaitFor_of_still {Q : Bool → W → Prop} {p : ℕ → P} {r : R} {stop : V → Bool} {w : W}
    (hstill : ∀ e, d.onEvent e w = w) (hread : ∀ v, d.onRead r v w = w) (hJ : ∀ n, J (p n) w)
    (hstop : ∀ bus, stop (d.answer r bus w) = true) (hQ : Q true w) (n : ℕ) :
    Safe d C J K Q (.awaitFor p r stop n) w := by
  cases n with
  | zero =>
    refine safe_read_of_still hstill (hJ 0) fun bus _ => ?_
    rw [safe_done, hstop, hread]
    exact hQ
  | succ n =>
    refine safe_read_of_still hstill (hJ _) fun bus _ => ?_
    rw [hstop, if_pos rfl, safe_done, hread]
    exact hQ

/-- A step meets the condition at the point where the program is. -/
def Meets (C : P → W → Step V E → Prop) (c : Prog P R V α × W) (e : Step V E) : Prop :=
  ∀ p, c.1.point = some p → C p c.2 e

/-- **The step rule.** -/
theorem safe_step {c : Prog P R V α × W} {e : Step V E} (h : Safe d C J K Q c.1 c.2)
    (he : Meets C c e) : Safe d C J K Q (step d c e).1 (step d c e).2 := by
  obtain ⟨x, w⟩ := c
  cases x with
  | done a => rwa [step_done]
  | read p r k =>
    cases e with
    | cpu bus => exact (h w .refl).2 bus (he p rfl)
    | event e => exact fun w' hs => h w' (.head ⟨e, he p rfl, rfl⟩ hs)
  | write p r v k =>
    cases e with
    | cpu bus => exact (h w .refl).2 bus (he p rfl)
    | event e => exact fun w' hs => h w' (.head ⟨e, he p rfl, rfl⟩ hs)
  | poll p r stop k =>
    cases e with
    | cpu bus =>
      by_cases hstop : stop (d.answer r bus w) = true
      · simp only [step, hstop, if_true]
        exact (h w .refl).2 bus (he p rfl) hstop
      · rw [Bool.not_eq_true] at hstop
        simp only [step, hstop, Bool.false_eq_true, if_false]
        exact fun w' hs => h w' (.head (.inr ⟨bus, he p rfl, hstop, rfl⟩) hs)
    | event e => exact fun w' hs => h w' (.head (.inl ⟨e, he p rfl, rfl⟩) hs)

/-- Where a safe program waits the assertion for this holds. -/
theorem Safe.at_poll {x : Prog P R V α} {w : W} (h : Safe d C J K Q x w) {p : P} {r : R}
    {stop : V → Bool} {k : V → Prog P R V α} (hx : x = .poll p r stop k) : K p r stop w := by
  subst hx
  exact (h w .refl).1

/-- At each point of a safe program one of the assertions holds. -/
theorem Safe.at_point {x : Prog P R V α} {w : W} (h : Safe d C J K Q x w) {p : P}
    (hp : x.point = some p) : J p w ∨ ∃ r stop, K p r stop w := by
  cases x with
  | done a => simp [Prog.point] at hp
  | read q r k => exact .inl (Option.some.inj hp ▸ (h w .refl).1)
  | write q r v k => exact .inl (Option.some.inj hp ▸ (h w .refl).1)
  | poll q r stop k => exact .inr ⟨r, stop, Option.some.inj hp ▸ (h w .refl).1⟩

/-- **Runs.** In a run whose steps meet the condition a program stays safe. -/
theorem safe_trace {c : Prog P R V α × W} (h : Safe d C J K Q c.1 c.2) (inp : ℕ → Step V E)
    (hC : ∀ n, Meets C (trace (step d) c inp n) (inp n)) (n : ℕ) :
    Safe d C J K Q (trace (step d) c inp n).1 (trace (step d) c inp n).2 :=
  trace_induction (C := Meets C) (P := fun c => Safe d C J K Q c.1 c.2)
    (fun _ _ h he => safe_step h he) h hC n

/-- What holds at the end of a run of finitely many steps. -/
theorem safe_run {x : Prog P R V α} {w : W} (h : Safe d (fun _ _ _ => True) J K Q x w)
    {es : List (Step V E)} {a : α} {w' : W} (hrun : run (step d) (x, w) es = (.done a, w')) :
    Q a w' := by
  have hkept : ∀ (c : Prog P R V α × W) e, Safe d (fun _ _ _ => True) J K Q c.1 c.2 →
      Safe d (fun _ _ _ => True) J K Q (step d c e).1 (step d c e).2 :=
    fun c e hc => safe_step hc fun _ _ => trivial
  have hsafe := run_induction (P := fun c => Safe d (fun _ _ _ => True) J K Q c.1 c.2) hkept
    (s := (x, w)) h es
  rw [hrun] at hsafe
  exact hsafe

end Safe

/-! ### Registers that a program leaves alone -/

section Avoids

/-- The program never writes to `r`. -/
def Prog.Avoids (r : R) : Prog P R V α → Prop
  | .done _ => True
  | .read _ _ k => ∀ v, (k v).Avoids r
  | .write _ r' _ k => r' ≠ r ∧ k.Avoids r
  | .poll _ _ _ k => ∀ v, (k v).Avoids r

theorem Prog.Avoids.bind {r : R} {x : Prog P R V α} (hx : x.Avoids r) {f : α → Prog P R V β}
    (hf : ∀ a, (f a).Avoids r) : (x.bind f).Avoids r := by
  induction x with
  | done a => exact hf a
  | read p r' k ih => exact fun v => ih v (hx v)
  | write p r' v k ih => exact ⟨hx.1, ih hx.2⟩
  | poll p r' stop k ih => exact fun v => ih v (hx v)

theorem Prog.avoids_ite {r : R} {c : Prop} [Decidable c] {x y : Prog P R V α} (hx : x.Avoids r)
    (hy : y.Avoids r) : (if c then x else y).Avoids r := by
  split
  · exact hx
  · exact hy

/-- What only a write to `r` can spoil, a program that avoids `r` keeps. -/
theorem safe_of_avoids {d : Device R V E W} {C : P → W → Step V E → Prop} (I : W → Prop) {r : R}
    (hev : ∀ w e, I w → I (d.onEvent e w)) (hread : ∀ r' v w, I w → I (d.onRead r' v w))
    (hwrite : ∀ r' v w, r' ≠ r → I w → I (d.onWrite r' v w)) {x : Prog P R V α} (hx : x.Avoids r)
    {w : W} (hw : I w) :
    Safe d C (fun _ _ => True) (fun _ _ _ _ => True) (fun _ w => I w) x w := by
  induction x generalizing w with
  | done a => exact hw
  | read p r' k ih =>
    exact safe_read I hw (fun w e h _ => hev w e h) (fun _ _ => trivial)
      fun w bus h _ => ih _ (hx _) (hread _ _ _ h)
  | write p r' v k ih =>
    exact safe_write I hw (fun w e h _ => hev w e h) (fun _ _ => trivial)
      fun w bus h _ => ih hx.2 (hwrite _ _ _ hx.1 h)
  | poll p r' stop k ih =>
    exact safe_poll I hw (fun w e h _ => hev w e h) (fun _ _ => trivial)
      (fun w bus h _ _ => hread _ _ _ h) fun w bus h _ _ => ih _ (hx _) (hread _ _ _ h)

end Avoids

/-! ### Returning -/

section Returns

variable {d : Device R V E W} {c : Prog P R V α × W} {inp : ℕ → Step V E}

/-- At a program that has returned a run stays. -/
theorem trace_of_done {n : ℕ} {a : α} {w : W} (h : trace (step d) c inp n = (.done a, w)) {m : ℕ}
    (hm : n ≤ m) : trace (step d) c inp m = (.done a, w) := by
  induction m, hm using Nat.le_induction with
  | base => exact h
  | succ m _ ih => rw [trace_succ, ih, step_done]

/-- An access that is not a try of a poll is made when the program has its turn. -/
theorem trace_access (hcpu : ∀ n, ∃ m, n ≤ m ∧ ∃ bus, inp m = .cpu bus) {x : Prog P R V α}
    (next : Prog P R V α → Prop) (hx : x.result = none)
    (hnext : ∀ w bus, next (step d (x, w) (.cpu bus)).1) {n : ℕ}
    (hn : (trace (step d) c inp n).1 = x) : ∃ m, n < m ∧ next (trace (step d) c inp m).1 := by
  refine trace_until (Q := fun c : Prog P R V α × W => c.1 = x) (G := fun c => next c.1)
    (E := fun _ e => ∃ bus, e = Step.cpu bus) ?_ ?_ hn (hcpu n)
  · rintro ⟨_, w⟩ e rfl
    cases e with
    | cpu bus => exact .inr (hnext w bus)
    | event e => exact .inl (by rw [step_event d hx])
  · rintro ⟨_, w⟩ _ rfl ⟨bus, rfl⟩
    exact hnext w bus

/-- A poll that would succeed at some time, if it went on for ever, comes to an end. -/
theorem poll_ends {p : P} {r : R} {stop : V → Bool} {k : V → Prog P R V α} {n : ℕ}
    (hn : (trace (step d) c inp n).1 = .poll p r stop k)
    (hstop : (∀ m, n ≤ m → (trace (step d) c inp m).1 = .poll p r stop k) →
      ∃ m, n ≤ m ∧ ∃ bus, inp m = .cpu bus ∧
        stop (d.answer r bus (trace (step d) c inp m).2) = true) :
    ∃ m, n < m ∧ ∃ v, (trace (step d) c inp m).1 = k v := by
  have hleave : ∀ m bus, (trace (step d) c inp m).1 = .poll p r stop k → inp m = .cpu bus →
      stop (d.answer r bus (trace (step d) c inp m).2) = true →
      (trace (step d) c inp (m + 1)).1 = k (d.answer r bus (trace (step d) c inp m).2) := by
    intro m bus hm hinp hs
    simp [trace_succ, hinp, step, hm, hs]
  by_contra hnone
  have hstays : ∀ m, n ≤ m → (trace (step d) c inp m).1 = .poll p r stop k := by
    intro m hm
    induction m, hm using Nat.le_induction with
    | base => exact hn
    | succ m hm ih =>
      cases hinp : inp m with
      | event e => rw [trace_succ, hinp, ← ih, step_event d (by rw [ih]; rfl)]
      | cpu bus =>
        cases hs : stop (d.answer r bus (trace (step d) c inp m).2) with
        | false => simp [trace_succ, hinp, step, ih, hs]
        | true => exact absurd ⟨m + 1, by omega, _, hleave m bus ih hinp hs⟩ hnone
  obtain ⟨m, hm, bus, hinp, hs⟩ := hstop hstays
  exact hnone ⟨m + 1, by omega, _, hleave m bus (hstays m hm) hinp hs⟩

/-- A poll of a register that an event `e` makes ready, and that then stays ready, comes to an end. -/
theorem poll_ends_of_event (hcpu : ∀ n, ∃ m, n ≤ m ∧ ∃ bus, inp m = .cpu bus) (ready : W → Prop)
    {e : E} (he : ∀ n, ∃ m, n ≤ m ∧ inp m = .event e) {p : P} {r : R} {stop : V → Bool}
    {k : V → Prog P R V α} {n : ℕ} (hn : (trace (step d) c inp n).1 = .poll p r stop k)
    (hread : ∀ v w, d.onRead r v w = w) (hkeep : ∀ e w, ready w → ready (d.onEvent e w))
    (hget : ∀ m, (trace (step d) c inp m).1 = .poll p r stop k →
      ready (d.onEvent e (trace (step d) c inp m).2))
    (hstop : ∀ m bus, (trace (step d) c inp m).1 = .poll p r stop k →
      ready (trace (step d) c inp m).2 → stop (d.answer r bus (trace (step d) c inp m).2) = true) :
    ∃ m, n < m ∧ ∃ v, (trace (step d) c inp m).1 = k v := by
  refine poll_ends hn fun hstays => ?_
  have hnext : ∀ m, n ≤ m → ∀ e, inp m = .event e →
      (trace (step d) c inp (m + 1)).2 = d.onEvent e (trace (step d) c inp m).2 := by
    intro m hm e hinp
    rw [trace_succ, hinp, ← Prod.mk.eta (p := trace (step d) c inp m), step_event]
    rw [hstays m hm]
    rfl
  obtain ⟨m, hm, hinp⟩ := he n
  have hready : ∀ i, m + 1 ≤ i → ready (trace (step d) c inp i).2 := by
    intro i hi
    induction i, hi using Nat.le_induction with
    | base =>
      rw [hnext m hm e hinp]
      exact hget m (hstays m hm)
    | succ i hi ih =>
      cases hinp' : inp i with
      | event e' =>
        rw [hnext i (by omega) e' hinp']
        exact hkeep e' _ ih
      | cpu bus =>
        have hstep : (trace (step d) c inp (i + 1)).2 = (trace (step d) c inp i).2 := by
          simp [trace_succ, hinp', step, hstays i (by omega), hread]
        rw [hstep]
        exact ih
  obtain ⟨i, hi, bus, hbus⟩ := hcpu (m + 1)
  exact ⟨i, by omega, bus, hbus, hstop i bus (hstays i (by omega)) (hready i hi)⟩

/-- **The return rule.** If the program has its turn again and again, and each of its polls comes
to an end, it returns. -/
theorem trace_done (hcpu : ∀ n, ∃ m, n ≤ m ∧ ∃ bus, inp m = .cpu bus) (n₀ : ℕ)
    (hpoll : ∀ n, n₀ ≤ n → ∀ p r stop k, (trace (step d) c inp n).1 = .poll p r stop k →
      ∃ m, n < m ∧ ∃ v, (trace (step d) c inp m).1 = k v) :
    ∃ m, n₀ ≤ m ∧ ∃ a, (trace (step d) c inp m).1 = .done a := by
  -- by induction on the tree that is left of the program
  have hreach : ∀ (x : Prog P R V α) n, n₀ ≤ n → (trace (step d) c inp n).1 = x →
      ∃ m, n₀ ≤ m ∧ ∃ a, (trace (step d) c inp m).1 = .done a := by
    intro x
    induction x with
    | done a => exact fun n hn hx => ⟨n, hn, a, hx⟩
    | read p r k ih =>
      intro n hn hx
      obtain ⟨m, hm, v, hv⟩ := trace_access hcpu (fun y => ∃ v, y = k v) rfl
        (fun w bus => ⟨_, rfl⟩) hx
      exact ih v m (hn.trans hm.le) hv
    | write p r v k ih =>
      intro n hn hx
      obtain ⟨m, hm, hk⟩ := trace_access hcpu (fun y => y = k) rfl (fun w bus => rfl) hx
      exact ih m (hn.trans hm.le) hk
    | poll p r stop k ih =>
      intro n hn hx
      obtain ⟨m, hm, v, hv⟩ := hpoll n hn p r stop k hx
      exact ih v m (hn.trans hm.le) hv
  exact hreach _ n₀ le_rfl rfl

end Returns

/-! ### Registers whose bits are cleared by writing ones -/

section Clear

variable {n : ℕ} {a b e v : BitVec n}

/-- Writing `v` to such a register with the value `a`. -/
def clear (a v : BitVec n) : BitVec n := a &&& ~~~v

/-- Raising bits outside of `e` leaves the bits of `e` alone. -/
theorem or_and_not_and (a b e : BitVec n) : (a ||| (b &&& ~~~e)) &&& e = a &&& e := by
  ext i hi
  simp
  grind

theorem or_and_of_and_eq_zero (h : b &&& e = 0#n) : (a ||| b) &&& e = a &&& e := by
  rw [BitVec.and_comm, BitVec.and_or_distrib_left, BitVec.and_comm e b, h, BitVec.or_zero,
    BitVec.and_comm]

theorem or_and_eq_zero : (a ||| b) &&& e = 0#n ↔ a &&& e = 0#n ∧ b &&& e = 0#n := by
  rw [BitVec.and_comm, BitVec.and_or_distrib_left, BitVec.or_eq_zero_iff, BitVec.and_comm e a,
    BitVec.and_comm e b]

/-- `x |= m` clears the bits of `e` that were raised before its read, and all others that are raised
then. -/
theorem clear_or_and (h : a &&& e = v &&& e) (m : BitVec n) : clear a (v ||| m) &&& e = 0#n := by
  ext i hi
  have hi := congrArg (·.getLsbD i) h
  simp [clear] at hi ⊢
  grind

/-- `x |= m` without an event in between clears the register. -/
theorem clear_or_self (a m : BitVec n) : clear a (a ||| m) = 0#n := by
  ext i hi
  simp [clear]
  grind

/-- Writing no bit of `e` leaves these alone. -/
theorem clear_and_of_and_eq_zero (h : v &&& e = 0#n) : clear a v &&& e = a &&& e := by
  ext i hi
  have hi := congrArg (·.getLsbD i) h
  simp [clear] at hi ⊢
  grind

end Clear

/-! ### Programs as functions of what they read -/

namespace Prog

/-- The result of a program that reads the values of a list, and the rest of the list. -/
def eval : Prog P R V α → List V → Option (α × List V)
  | done a, t => some (a, t)
  | read _ _ k, t =>
    match t with
    | [] => none
    | v :: t => (k v).eval t
  | write _ _ _ k, t => k.eval t
  | poll _ _ stop k, t =>
    match t.dropWhile fun v => !stop v with
    | [] => none
    | v :: t => (k v).eval t

@[simp] theorem eval_done (a : α) (t : List V) : (done a : Prog P R V α).eval t = some (a, t) := rfl

@[simp] theorem eval_write (p : P) (r : R) (v : V) (k : Prog P R V α) (t : List V) :
    (write p r v k).eval t = k.eval t := rfl

/-- **Evaluation of sequences.** -/
theorem eval_bind (x : Prog P R V α) (f : α → Prog P R V β) (t : List V) :
    (x.bind f).eval t = (x.eval t).bind fun y => (f y.1).eval y.2 := by
  induction x generalizing t with
  | done a => rfl
  | read p r k ih =>
    cases t with
    | nil => rfl
    | cons v t => exact ih v t
  | write p r v k ih => exact ih t
  | poll p r stop k ih =>
    simp only [poll_bind, eval]
    split
    · rfl
    · exact ih _ _

/-- `Q` holds of every result that a program can have. -/
def Post (Q : α → Prop) : Prog P R V α → Prop
  | done a => Q a
  | read _ _ k => ∀ v, (k v).Post Q
  | write _ _ _ k => k.Post Q
  | poll _ _ _ k => ∀ v, (k v).Post Q

@[simp] theorem post_done {Q : α → Prop} {a : α} : (done a : Prog P R V α).Post Q ↔ Q a := Iff.rfl

theorem post_ite {Q : α → Prop} {c : Prop} [Decidable c] {x y : Prog P R V α} (hx : x.Post Q)
    (hy : y.Post Q) : (if c then x else y).Post Q := by
  split
  · exact hx
  · exact hy

/-- What holds whatever the result of `x` is, holds after `x`. -/
theorem post_bind {Q : β → Prop} (x : Prog P R V α) {f : α → Prog P R V β}
    (h : ∀ a, (f a).Post Q) : (x.bind f).Post Q := by
  induction x with
  | done a => exact h a
  | read p r k ih => exact fun v => ih v
  | write p r v k ih => exact ih
  | poll p r stop k ih => exact fun v => ih v

/-- The rule for sequences that uses what holds of the result of `x`. -/
theorem Post.bind {Q : α → Prop} {Q' : β → Prop} {x : Prog P R V α} (hx : x.Post Q)
    {f : α → Prog P R V β} (h : ∀ a, Q a → (f a).Post Q') : (x.bind f).Post Q' := by
  induction x with
  | done a => exact h a hx
  | read p r k ih => exact fun v => ih v (hx v)
  | write p r v k ih => exact ih hx
  | poll p r stop k ih => exact fun v => ih v (hx v)

theorem Post.mono {Q Q' : α → Prop} (hQ : ∀ a, Q a → Q' a) {x : Prog P R V α} (hx : x.Post Q) :
    x.Post Q' := by
  induction x with
  | done a => exact hQ a hx
  | read p r k ih => exact fun v => ih v (hx v)
  | write p r v k ih => exact ih hx
  | poll p r stop k ih => exact fun v => ih v (hx v)

theorem Post.eval {Q : α → Prop} {x : Prog P R V α} (hx : x.Post Q) {t t' : List V} {a : α}
    (h : x.eval t = some (a, t')) : Q a := by
  induction x generalizing t with
  | done b => exact (Prod.mk.inj (Option.some.inj h)).1 ▸ hx
  | read p r k ih =>
    cases t with
    | nil => cases h
    | cons v t => exact ih v (hx v) h
  | write p r v k ih => exact ih hx h
  | poll p r stop k ih =>
    simp only [Prog.eval] at h
    split at h
    · cases h
    · exact ih _ (hx _) h

end Prog

/-- The value that a step of the program reads, if it reads one. -/
def answered (d : Device R V E W) (c : Prog P R V α × W) : Step V E → List V
  | .cpu bus =>
    match c.1 with
    | .read _ r _ => [d.answer r bus c.2]
    | .poll _ r _ _ => [d.answer r bus c.2]
    | _ => []
  | .event _ => []

/-- The values that the program reads in a run. -/
def answers (d : Device R V E W) (c : Prog P R V α × W) : List (Step V E) → List V
  | [] => []
  | e :: es => answered d c e ++ answers d (step d c e) es

/-- A step together with the value that it reads. -/
theorem eval_step (d : Device R V E W) (c : Prog P R V α × W) (e : Step V E) (t : List V) :
    c.1.eval (answered d c e ++ t) = (step d c e).1.eval t := by
  obtain ⟨x, w⟩ := c
  cases e with
  | event e =>
    cases x <;> rfl
  | cpu bus =>
    cases x with
    | done a => rfl
    | read p r k => rfl
    | write p r v k => rfl
    | poll p r stop k =>
      by_cases hstop : stop (d.answer r bus w) = true
      · simp [answered, step, Prog.eval, hstop]
      · simp [answered, step, Prog.eval, hstop]

/-- **Adequacy.** What a run with any device returns is a function of the values read in it. -/
theorem eval_answers (d : Device R V E W) (c : Prog P R V α × W) (es : List (Step V E)) {a : α}
    (h : (run (step d) c es).1 = .done a) : c.1.eval (answers d c es) = some (a, []) := by
  induction es generalizing c with
  | nil =>
    rw [run_nil] at h
    rw [h]
    rfl
  | cons e es ih =>
    rw [run_cons] at h
    rw [answers, eval_step]
    exact ih _ h

end RegProgram
