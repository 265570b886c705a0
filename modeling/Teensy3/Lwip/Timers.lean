import Teensy3.Lib.DeltaQueue
import Teensy3.Lib.Run

/-!
# The timeouts of lwIP (`timers.c`)

`sys_timeout` keeps one list of timeouts; the time of each counts from the one before it.
`sys_check_timeouts`, which `ether_poll` calls, takes off the list what has become due since the
last timeout was called, and calls the handlers.  These may set and remove timeouts themselves.

* `sysTimeout`, `sysUntimeout`, `lwipU32Diff`: the code, on 32-bit times;
* `State`, `Event`, `step`: the list, the time stamp and the loop of `sys_check_timeouts`, one
  event for one turn of the loop, so that the events between two turns are what a handler does;
* `Schedule`, `Schedule.step`: what the list is for, a queue of jobs with absolute due times in a
  virtual time of its own, in the order of due times and, for one due time, of the calls;
* `refines_run`: in every run the list is the queue, and nothing ever overflows;
* `InTime`: virtual time is behind the clock;
* `schedule_run`: the jobs are called in this order, each is waiting, called or removed, and none
  is called before it is due.
-/

namespace Lwip
namespace Timers

open DeltaQueue

/-- `struct sys_timeo`; a handler may be `NULL`. -/
structure Timeo (H A : Type) where
  time : BitVec 32
  h : Option H
  arg : A
  deriving DecidableEq

/-- `LWIP_U32_DIFF` of `def.h`. -/
def lwipU32Diff (a b : BitVec 32) : BitVec 32 :=
  if b ≤ a then a - b else a + (b ^^^ 0xFFFFFFFF#32) + 1#32

theorem lwipU32Diff_eq (a b : BitVec 32) : lwipU32Diff a b = a - b := by
  have hneg : b ^^^ 0xFFFFFFFF#32 = ~~~b := by
    rw [show (0xFFFFFFFF#32) = BitVec.allOnes 32 from rfl, BitVec.xor_allOnes]
  rw [lwipU32Diff, hneg]
  split
  · rfl
  · rw [BitVec.add_assoc, ← BitVec.neg_eq_not_add, BitVec.sub_eq_add_neg]

section Code

variable {H A : Type}

/-- The loop of `sys_timeout`, at the entry `t`. -/
def sysTimeoutLoop (timeout t : Timeo H A) : List (Timeo H A) → List (Timeo H A)
  | [] => [t, { timeout with time := timeout.time - t.time }]
  | next :: q =>
    let timeout := { timeout with time := timeout.time - t.time }
    if timeout.time < next.time then
      t :: timeout :: { next with time := next.time - timeout.time } :: q
    else t :: sysTimeoutLoop timeout next q

/-- `sys_timeout`, when `memp_malloc` has an entry for it. -/
def sysTimeout (msecs : BitVec 32) (handler : Option H) (arg : A) :
    List (Timeo H A) → List (Timeo H A)
  | [] => [⟨msecs, handler, arg⟩]
  | t :: q =>
    if msecs < t.time then ⟨msecs, handler, arg⟩ :: { t with time := t.time - msecs } :: q
    else sysTimeoutLoop ⟨msecs, handler, arg⟩ t q

/-- Unlinking the entry `t`: its time goes to the next one. -/
def unlink (t : Timeo H A) : List (Timeo H A) → List (Timeo H A)
  | [] => []
  | next :: q => { next with time := next.time + t.time } :: q

def sysUntimeout [DecidableEq H] [DecidableEq A] (handler : Option H) (arg : A) :
    List (Timeo H A) → List (Timeo H A)
  | [] => []
  | t :: q => if t.h = handler ∧ t.arg = arg then unlink t q else t :: sysUntimeout handler arg q

/-- The state of `timers.c`.  While `sys_check_timeouts` runs, `loop` has its `now` and `diff`;
`called` records the handlers called and `nullDeref` a read of `next_timeout->time` at `NULL`. -/
structure State (H A : Type) where
  nextTimeout : List (Timeo H A)
  timeoutsLastTime : BitVec 32
  loop : Option (BitVec 32 × BitVec 32)
  called : List (H × A)
  nullDeref : Bool
  deriving DecidableEq

/-- A call of a function of `timers.c`, or one turn of the loop of `sys_check_timeouts`.
The flag of `timeout` is whether `memp_malloc` finds an entry; `now` is the value of `sys_now()`. -/
inductive Event (H A : Type)
  | timeout (msecs : BitVec 32) (handler : Option H) (arg : A) (allocated : Bool)
  | untimeout (handler : Option H) (arg : A)
  | restart (now : BitVec 32)
  | check (now : BitVec 32)
  | turn
  deriving DecidableEq

/-- One turn of `do { … } while (had_one)`, with the handler's own calls still to come. -/
def turn (s : State H A) (now diff : BitVec 32) : State H A :=
  match s.nextTimeout with
  | [] => { s with nullDeref := true }
  | t :: q =>
    if t.time ≤ diff then
      { s with
        nextTimeout := q
        timeoutsLastTime := now
        loop := some (now, diff - t.time)
        called := s.called ++ t.h.toList.map (·, t.arg) }
    else { s with loop := none }

theorem turn_of_nil {s : State H A} (hs : s.nextTimeout = []) (now diff : BitVec 32) :
    turn s now diff = { s with nullDeref := true } := by
  rw [turn, hs]

theorem turn_of_cons {s : State H A} {t : Timeo H A} {q : List (Timeo H A)}
    (hs : s.nextTimeout = t :: q) (now diff : BitVec 32) :
    turn s now diff =
      if t.time ≤ diff then
        { s with
          nextTimeout := q
          timeoutsLastTime := now
          loop := some (now, diff - t.time)
          called := s.called ++ t.h.toList.map (·, t.arg) }
      else { s with loop := none } := by
  rw [turn, hs]

variable [DecidableEq H] [DecidableEq A]

def step (s : State H A) : Event H A → State H A
  | .timeout msecs handler arg allocated =>
    if allocated then { s with nextTimeout := sysTimeout msecs handler arg s.nextTimeout } else s
  | .untimeout handler arg => { s with nextTimeout := sysUntimeout handler arg s.nextTimeout }
  | .restart now => { s with timeoutsLastTime := now }
  | .check now =>
    match s.loop with
    | some _ => s
    | none =>
      if s.nextTimeout = [] then s
      else { s with loop := some (now, lwipU32Diff now s.timeoutsLastTime) }
  | .turn =>
    match s.loop with
    | some (now, diff) => if s.nullDeref then s else turn s now diff
    | none => s

end Code

/-! ### The schedule -/

/-- A call of `sys_timeout`: its number, and what it is to call. -/
structure Job (H A : Type) where
  serial : ℕ
  h : Option H
  arg : A
  deriving DecidableEq

/-- Jobs that are to call `handler(arg)`. -/
def Job.matches {H A : Type} [DecidableEq H] [DecidableEq A] (handler : Option H) (arg : A)
    (j : Job H A) : Bool :=
  decide (j.h = handler ∧ j.arg = arg)

/-- What the list of timeouts is for.  `time` is the due time of the last job taken off the queue:
virtual time stands still between two of them.  `jobs` are all jobs ever set. -/
structure Schedule (H A : Type) where
  time : ℕ
  queue : List (ℕ × Job H A)
  fired : List (ℕ × Job H A)
  removed : List (ℕ × Job H A)
  jobs : List (ℕ × Job H A)
  last : BitVec 32
  loop : Option (BitVec 32 × ℕ)
  stuck : Bool

namespace Schedule

variable {H A : Type}

/-- The first job is called if it is due by the time `horizon`. -/
def turn (a : Schedule H A) (now : BitVec 32) (horizon : ℕ) : Schedule H A :=
  match a.queue with
  | [] => { a with stuck := true }
  | x :: q =>
    if x.1 ≤ horizon then { a with time := x.1, queue := q, fired := a.fired ++ [x], last := now }
    else { a with loop := none }

theorem turn_of_nil {a : Schedule H A} (ha : a.queue = []) (now : BitVec 32) (horizon : ℕ) :
    a.turn now horizon = { a with stuck := true } := by
  rw [turn, ha]

theorem turn_of_cons {a : Schedule H A} {x : ℕ × Job H A} {q : List (ℕ × Job H A)}
    (ha : a.queue = x :: q) (now : BitVec 32) (horizon : ℕ) :
    a.turn now horizon =
      if x.1 ≤ horizon then
        { a with time := x.1, queue := q, fired := a.fired ++ [x], last := now }
      else { a with loop := none } := by
  rw [turn, ha]

def step [DecidableEq H] [DecidableEq A] (a : Schedule H A) : Event H A → Schedule H A
  | .timeout msecs handler arg allocated =>
    if allocated then
      { a with
        queue := enqueue (a.time + msecs.toNat) ⟨a.jobs.length, handler, arg⟩ a.queue
        jobs := a.jobs ++ [(a.time + msecs.toNat, ⟨a.jobs.length, handler, arg⟩)] }
    else a
  | .untimeout handler arg =>
    { a with
      queue := a.queue.eraseP fun x => x.2.matches handler arg
      removed := a.removed ++ (a.queue.find? fun x => x.2.matches handler arg).toList }
  | .restart now => { a with last := now }
  | .check now =>
    match a.loop with
    | some _ => a
    | none => if a.queue = [] then a else { a with loop := some (now, a.time + (now - a.last).toNat) }
  | .turn =>
    match a.loop with
    | some (now, horizon) => if a.stuck then a else turn a now horizon
    | none => a

end Schedule

/-! ### The list is the queue -/

section Refinement

variable {H A : Type}

/-- The list of timeouts, its times as natural numbers. -/
def view (q : List (Timeo H A)) : List (ℕ × Option H × A) :=
  q.map fun t => (t.time.toNat, t.h, t.arg)

/-- What a job is to call, without its number. -/
def Job.call (j : Job H A) : Option H × A := (j.h, j.arg)

@[simp] theorem view_nil : view ([] : List (Timeo H A)) = [] := rfl

@[simp] theorem view_cons (t : Timeo H A) (q : List (Timeo H A)) :
    view (t :: q) = (t.time.toNat, t.h, t.arg) :: view q := rfl

theorem toNat_sub_of_not_lt {a b : BitVec 32} (h : ¬ a < b) : (a - b).toNat = a.toNat - b.toNat :=
  BitVec.toNat_sub_of_le (BitVec.not_lt.1 h)

theorem view_sysTimeoutLoop (timeout t : Timeo H A) (q : List (Timeo H A))
    (h : ¬ timeout.time < t.time) :
    view (sysTimeoutLoop timeout t q) =
      insertAfter timeout.time.toNat (timeout.h, timeout.arg) (view (t :: q)) := by
  induction q generalizing timeout t with
  | nil =>
    have hlt : ¬ timeout.time.toNat < t.time.toNat := h
    simp [sysTimeoutLoop, insertAfter, hlt, toNat_sub_of_not_lt h]
  | cons next q ih =>
    have hlt : ¬ timeout.time.toNat < t.time.toNat := h
    rw [view_cons, insertAfter, if_neg hlt, sysTimeoutLoop]
    dsimp only
    rw [← toNat_sub_of_not_lt h]
    split
    · rename_i hnext
      have hnext' : (timeout.time - t.time).toNat < next.time.toNat := hnext
      rw [view_cons, view_cons, view_cons, view_cons, insertAfter, if_pos hnext',
        BitVec.toNat_sub_of_le (BitVec.le_of_lt hnext)]
    · rename_i hnext
      rw [view_cons, ih _ _ hnext]

/-- `sys_timeout` never subtracts more than there is. -/
theorem view_sysTimeout (msecs : BitVec 32) (handler : Option H) (arg : A)
    (q : List (Timeo H A)) :
    view (sysTimeout msecs handler arg q) = insertAfter msecs.toNat (handler, arg) (view q) := by
  cases q with
  | nil => rfl
  | cons t q =>
    rw [sysTimeout]
    split
    · rename_i hlt
      have hlt' : msecs.toNat < t.time.toNat := hlt
      rw [view_cons, view_cons, view_cons, insertAfter, if_pos hlt',
        BitVec.toNat_sub_of_le (BitVec.le_of_lt hlt)]
    · rename_i hlt
      exact view_sysTimeoutLoop _ _ _ hlt

theorem view_unlink {t : Timeo H A} {q : List (Timeo H A)} {v : ℕ}
    (hsmall : ∀ x ∈ dues (v + t.time.toNat) (view q), x.1 < v + 2 ^ 32) :
    view (unlink t q) = carry t.time.toNat (view q) := by
  cases q with
  | nil => rfl
  | cons next q =>
    have hsum := hsmall (v + t.time.toNat + next.time.toNat, next.h, next.arg) (by simp)
    rw [unlink, view_cons, view_cons, carry, BitVec.toNat_add,
      Nat.mod_eq_of_lt (by dsimp only at hsum; omega)]

/-- `sys_untimeout` does not overflow if all jobs are due within 2^32 ms. -/
theorem view_sysUntimeout [DecidableEq H] [DecidableEq A] (handler : Option H) (arg : A)
    {q : List (Timeo H A)} {v w : ℕ} (hv : w ≤ v)
    (hsmall : ∀ x ∈ dues v (view q), x.1 < w + 2 ^ 32) :
    view (sysUntimeout handler arg q) =
      remove (fun c => decide (c.1 = handler ∧ c.2 = arg)) (view q) := by
  induction q generalizing v with
  | nil => rfl
  | cons t q ih =>
    have htail : ∀ x ∈ dues (v + t.time.toNat) (view q), x.1 < w + 2 ^ 32 :=
      fun x hx => hsmall x (by rw [view_cons, dues_cons]; exact List.mem_cons_of_mem _ hx)
    rw [sysUntimeout, view_cons, remove]
    split
    · rename_i hmatch
      rw [if_pos (by simpa using hmatch)]
      exact view_unlink fun x hx => (htail x hx).trans_le (by omega)
    · rename_i hmatch
      rw [if_neg (by simpa using hmatch), view_cons, ih (by omega) htail]

/-- The state `s` of the code stands for the schedule `a`. -/
structure Refines (s : State H A) (a : Schedule H A) : Prop where
  queue : dues a.time (view s.nextTimeout) = a.queue.map fun x => (x.1, x.2.call)
  last : s.timeoutsLastTime = a.last
  loop : s.loop.map (fun l => (l.1, a.time + l.2.toNat)) = a.loop
  called : s.called = a.fired.flatMap fun x => x.2.h.toList.map (·, x.2.arg)
  stuck : s.nullDeref = a.stuck
  /-- No job is due 2^32 ms or more after the last one. -/
  small : ∀ x ∈ a.queue, x.1 < a.time + 2 ^ 32

variable {s : State H A} {a : Schedule H A}

theorem Refines.nil_iff (h : Refines s a) : s.nextTimeout = [] ↔ a.queue = [] := by
  have hdues : dues a.time (view s.nextTimeout) = [] ↔ a.queue = [] := by
    rw [h.queue, List.map_eq_nil_iff]
  rwa [dues_eq_nil, view, List.map_eq_nil_iff] at hdues

/-- One turn of the loop, in which `diff` is what is left up to the horizon. -/
theorem Refines.turn (h : Refines s a) {now diff : BitVec 32} (hl : s.loop = some (now, diff)) :
    Refines (Timers.turn s now diff) (a.turn now (a.time + diff.toNat)) := by
  cases hs : s.nextTimeout with
  | nil =>
    rw [turn_of_nil hs, Schedule.turn_of_nil (h.nil_iff.1 hs)]
    exact { h with stuck := rfl }
  | cons t q =>
    obtain ⟨x, ys, ha⟩ : ∃ x ys, a.queue = x :: ys :=
      List.exists_cons_of_ne_nil fun hnil => by simp [h.nil_iff.2 hnil] at hs
    have hqueue := h.queue
    rw [hs, ha, view_cons, dues_cons, List.map_cons, List.cons.injEq, Prod.mk.injEq] at hqueue
    obtain ⟨⟨hdue, hcall⟩, hrest⟩ := hqueue
    have hdiff : t.time ≤ diff ↔ x.1 ≤ a.time + diff.toNat := by
      rw [← hdue, Nat.add_le_add_iff_left]
      exact Iff.rfl
    rw [turn_of_cons hs, Schedule.turn_of_cons ha]
    simp only [← hdiff]
    by_cases hle : t.time ≤ diff
    · rw [if_pos hle, if_pos hle]
      refine ⟨?_, rfl, ?_, ?_, h.stuck, ?_⟩
      · rw [← hdue]
        exact hrest
      · have hleft : x.1 + (diff - t.time).toNat = a.time + diff.toNat := by
          have hle' : t.time.toNat ≤ diff.toNat := hle
          rw [BitVec.toNat_sub_of_le hle, ← hdue]
          omega
        rw [Option.map_some, hleft, ← h.loop, hl, Option.map_some]
      · rw [List.flatMap_append, ← h.called]
        simp only [Job.call, Prod.mk.injEq] at hcall
        simp [hcall.1, hcall.2]
      · intro y hy
        have hsmall := h.small y (by rw [ha]; exact List.mem_cons_of_mem _ hy)
        show y.1 < x.1 + 2 ^ 32
        omega
    · rw [if_neg hle, if_neg hle]
      exact { h with loop := rfl }

/-- The state of `timers.c` before `sys_timeouts_init`, and the empty schedule. -/
def boot (now : BitVec 32) : State H A := ⟨[], now, none, [], false⟩

def Schedule.boot (now : BitVec 32) : Schedule H A := ⟨0, [], [], [], [], now, none, false⟩

theorem refines_boot (now : BitVec 32) :
    Refines (boot now : State H A) (Schedule.boot now) :=
  ⟨rfl, rfl, rfl, rfl, rfl, fun _ hx => absurd hx List.not_mem_nil⟩

variable [DecidableEq H] [DecidableEq A]

theorem Refines.timeout (h : Refines s a) (msecs : BitVec 32) (handler : Option H) (arg : A)
    (allocated : Bool) : Refines (step s (.timeout msecs handler arg allocated))
      (a.step (.timeout msecs handler arg allocated)) := by
  cases allocated with
  | false => simpa [step, Schedule.step] using h
  | true =>
    refine { h with queue := ?_, small := ?_ }
    · show dues a.time (view (sysTimeout msecs handler arg s.nextTimeout)) = _
      rw [view_sysTimeout, dues_insertAfter, h.queue]
      exact (map_enqueue Job.call _ ⟨a.jobs.length, handler, arg⟩ a.queue).symm
    · intro x hx
      rcases mem_enqueue.1 hx with rfl | hx
      · exact Nat.add_lt_add_left msecs.isLt _
      · exact h.small x hx

theorem Refines.untimeout (h : Refines s a) (handler : Option H) (arg : A) :
    Refines (step s (.untimeout handler arg)) (a.step (.untimeout handler arg)) := by
  have hsmall : ∀ x ∈ dues a.time (view s.nextTimeout), x.1 < a.time + 2 ^ 32 := by
    rw [h.queue]
    intro x hx
    obtain ⟨y, hy, rfl⟩ := List.mem_map.1 hx
    exact h.small y hy
  refine { h with queue := ?_, small := ?_ }
  · show dues a.time (view (sysUntimeout handler arg s.nextTimeout)) = _
    rw [view_sysUntimeout handler arg le_rfl hsmall, dues_remove, h.queue, List.eraseP_map]
    rfl
  · exact fun x hx => h.small x (List.mem_of_mem_eraseP hx)

theorem Refines.check (h : Refines s a) (now : BitVec 32) :
    Refines (step s (.check now)) (a.step (.check now)) := by
  have hloop := h.loop
  cases hl : s.loop with
  | some l =>
    rw [hl] at hloop
    simpa only [step, Schedule.step, hl, ← hloop, Option.map_some] using h
  | none =>
    rw [hl] at hloop
    simp only [step, Schedule.step, hl, ← hloop, Option.map_none]
    by_cases hq : a.queue = []
    · simpa only [h.nil_iff.2 hq, hq, if_true] using h
    · rw [if_neg hq, if_neg (mt h.nil_iff.1 hq)]
      refine { h with loop := ?_ }
      rw [Option.map_some, lwipU32Diff_eq, h.last]

/-- Every event does to the list what it does to the schedule. -/
theorem Refines.step (h : Refines s a) (e : Event H A) : Refines (Timers.step s e) (a.step e) := by
  cases e with
  | timeout msecs handler arg allocated => exact h.timeout msecs handler arg allocated
  | untimeout handler arg => exact h.untimeout handler arg
  | restart now => exact { h with last := rfl }
  | check now => exact h.check now
  | turn =>
    have hloop := h.loop
    cases hl : s.loop with
    | none =>
      rw [hl] at hloop
      simpa only [Timers.step, Schedule.step, hl, ← hloop, Option.map_none] using h
    | some l =>
      obtain ⟨now, diff⟩ := l
      rw [hl] at hloop
      simp only [Timers.step, Schedule.step, hl, ← hloop, Option.map_some, ← h.stuck]
      split
      · exact h
      · exact h.turn hl

theorem refines_run (now : BitVec 32) (es : List (Event H A)) :
    Refines (Machine.run Timers.step (boot now) es)
      (Machine.run Schedule.step (Schedule.boot now) es) := by
  have hrun : ∀ (s : State H A) (a : Schedule H A), Refines s a →
      Refines (Machine.run Timers.step s es) (Machine.run Schedule.step a es) := by
    induction es with
    | nil => exact fun s a h => h
    | cons e es ih => exact fun s a h => ih _ _ (h.step e)
  exact hrun _ _ (refines_boot now)

end Refinement

/-! ### Order and completeness of the schedule -/

namespace Schedule

variable {H A : Type}

/-- The order in which jobs are called. -/
def Before (x y : ℕ × Job H A) : Prop := x.1 < y.1 ∨ x.1 = y.1 ∧ x.2.serial < y.2.serial

instance (x y : ℕ × Job H A) : Decidable (Before x y) := inferInstanceAs (Decidable (_ ∨ _))

theorem Before.le {x y : ℕ × Job H A} (h : Before x y) : x.1 ≤ y.1 := by
  rcases h with h | h
  · exact h.le
  · exact h.1.le

structure Ordered (a : Schedule H A) : Prop where
  pairwise : (a.fired ++ a.queue).Pairwise Before
  /-- Virtual time is past what has been called, and not past what is to come. -/
  past : ∀ x ∈ a.fired, x.1 ≤ a.time
  future : ∀ x ∈ a.queue, a.time ≤ x.1
  /-- Every job is in one of the three lists, and in it once. -/
  accounted : (a.fired ++ a.queue ++ a.removed).Perm a.jobs
  serials : a.jobs.map (fun x => x.2.serial) = List.range a.jobs.length

theorem Ordered.serial_lt {a : Schedule H A} (h : Ordered a) {x : ℕ × Job H A}
    (hx : x ∈ a.fired ++ a.queue ++ a.removed) : x.2.serial < a.jobs.length := by
  have hmem : x.2.serial ∈ a.jobs.map fun x => x.2.serial :=
    List.mem_map_of_mem (h.accounted.mem_iff.1 hx)
  rwa [h.serials, List.mem_range] at hmem

theorem ordered_boot (now : BitVec 32) : Ordered (boot now : Schedule H A) :=
  ⟨List.Pairwise.nil, fun _ hx => absurd hx List.not_mem_nil,
    fun _ hx => absurd hx List.not_mem_nil, List.Perm.refl _, rfl⟩

/-- A new job is due last among those with its due time. -/
theorem Ordered.timeout {a : Schedule H A} (h : Ordered a) (m : ℕ) (handler : Option H) (arg : A) :
    Ordered { a with
      queue := enqueue (a.time + m) ⟨a.jobs.length, handler, arg⟩ a.queue
      jobs := a.jobs ++ [(a.time + m, ⟨a.jobs.length, handler, arg⟩)] } := by
  have hserial : ∀ x ∈ a.fired ++ a.queue, x.2.serial < a.jobs.length :=
    fun x hx => h.serial_lt (List.mem_append_left _ hx)
  obtain ⟨hfired, hqueue, hcross⟩ := List.pairwise_append.1 h.pairwise
  have hnew : ∀ x ∈ a.fired ++ a.queue, x.1 ≤ a.time + m →
      Before x (a.time + m, (⟨a.jobs.length, handler, arg⟩ : Job H A)) := by
    intro x hx hle
    rcases hle.lt_or_eq with hlt | heq
    · exact .inl hlt
    · exact .inr ⟨heq, hserial x hx⟩
  refine ⟨?_, h.past, ?_, ?_, ?_⟩
  · refine List.pairwise_append.2 ⟨hfired, ?_, fun x hx y hy => ?_⟩
    · exact pairwise_enqueue (hqueue.imp Before.le) hqueue
        (fun x hx => hnew x (List.mem_append_right _ hx)) (fun x _ hlt => .inl hlt)
    · rcases mem_enqueue.1 hy with rfl | hy
      · exact hnew x (List.mem_append_left _ hx) ((h.past x hx).trans (Nat.le_add_right _ _))
      · exact hcross x hx y hy
  · intro x hx
    rcases mem_enqueue.1 hx with rfl | hx
    · exact Nat.le_add_right _ _
    · exact h.future x hx
  · have hperm := (enqueue_perm (a.time + m) ⟨a.jobs.length, handler, arg⟩ a.queue).append_left a.fired
    refine (hperm.append_right a.removed).trans ?_
    refine (List.perm_middle.append_right a.removed).trans ?_
    exact (h.accounted.cons _).trans (List.perm_append_singleton _ _).symm
  · rw [List.map_append, h.serials, List.length_append, List.range_add]
    simp

theorem Ordered.untimeout {a : Schedule H A} (h : Ordered a) (p : ℕ × Job H A → Bool) :
    Ordered { a with queue := a.queue.eraseP p, removed := a.removed ++ (a.queue.find? p).toList } := by
  have hsub : (a.fired ++ a.queue.eraseP p).Sublist (a.fired ++ a.queue) :=
    (List.Sublist.refl _).append List.eraseP_sublist
  refine ⟨h.pairwise.sublist hsub, h.past, fun x hx => h.future x (List.mem_of_mem_eraseP hx), ?_,
    h.serials⟩
  have hqueue : (a.queue.eraseP p ++ (a.queue.find? p).toList).Perm a.queue := by
    cases hfind : a.queue.find? p with
    | none =>
      rw [List.eraseP_of_forall_not (by simpa using hfind)]
      simp
    | some x =>
      obtain ⟨hx, as, bs, hq, has⟩ := List.find?_eq_some_iff_append.1 hfind
      rw [hq, List.eraseP_append_right _ (by simpa using has), List.eraseP_cons_of_pos hx]
      rw [List.append_assoc]
      exact (List.perm_append_singleton x bs).append_left as
  have hmove : (a.fired ++ a.queue.eraseP p ++ (a.removed ++ (a.queue.find? p).toList)).Perm
      (a.fired ++ (a.queue.eraseP p ++ (a.queue.find? p).toList) ++ a.removed) := by
    simp only [List.append_assoc]
    exact (List.perm_append_comm.append_left _).append_left _
  exact (hmove.trans ((hqueue.append_left _).append_right _)).trans h.accounted

theorem Ordered.turn {a : Schedule H A} (h : Ordered a) (now : BitVec 32) (horizon : ℕ) :
    Ordered (a.turn now horizon) := by
  cases ha : a.queue with
  | nil =>
    rw [turn_of_nil ha]
    exact { h with }
  | cons x q =>
    rw [turn_of_cons ha]
    split
    · have hall : a.fired ++ [x] ++ q = a.fired ++ a.queue := by simp [ha]
      have hafter : ∀ y ∈ a.fired ++ [x], y.1 ≤ x.1 := by
        intro y hy
        rcases List.mem_append.1 hy with hy | hy
        · exact (h.past y hy).trans (h.future x (by simp [ha]))
        · rw [List.mem_singleton.1 hy]
      have hbefore : ∀ y ∈ q, x.1 ≤ y.1 := by
        have hpair := (List.pairwise_append.1 h.pairwise).2.1
        rw [ha] at hpair
        exact fun y hy => ((List.pairwise_cons.1 hpair).1 y hy).le
      refine ⟨?_, hafter, hbefore, ?_, h.serials⟩
      · rw [hall]
        exact h.pairwise
      · rw [hall]
        exact h.accounted
    · exact { h with }

theorem Ordered.step [DecidableEq H] [DecidableEq A] {a : Schedule H A} (h : Ordered a)
    (e : Event H A) : Ordered (a.step e) := by
  cases e with
  | timeout msecs handler arg allocated =>
    cases allocated with
    | false => exact h
    | true => exact h.timeout msecs.toNat handler arg
  | untimeout handler arg => exact h.untimeout _
  | restart now => exact { h with }
  | check now =>
    simp only [Schedule.step]
    split
    · exact h
    · split
      · exact h
      · exact { h with }
  | turn =>
    simp only [Schedule.step]
    split
    · split
      · exact h
      · exact h.turn _ _
    · exact h

theorem ordered_run [DecidableEq H] [DecidableEq A] (now : BitVec 32) (es : List (Event H A)) :
    Ordered (Machine.run step (boot now) es) :=
  Machine.run_induction (fun _ e h => h.step e) (ordered_boot now) es

end Schedule

/-! ### Virtual time and the clock -/

/-- The clock, in milliseconds since the start, when the milliseconds `x.1` pass before `x.2`. -/
def clockStep {H A : Type} (clock : ℕ) (x : ℕ × Event H A) : ℕ := clock + x.1

/-- The value of `sys_now()` that an event reads. -/
def Event.reading {H A : Type} : Event H A → Option (BitVec 32)
  | .restart now => some now
  | .check now => some now
  | _ => none

/-- `sys_now` gives the clock modulo 2^32. -/
def ReadsClock {H A : Type} (clock : ℕ) (x : ℕ × Event H A) : Prop :=
  ∀ now, x.2.reading = some now → now = BitVec.ofNat 32 (clockStep clock x)

/-- The difference of two readings of the clock is at most the time between them. -/
theorem toNat_ofNat_sub_le {m n : ℕ} (h : m ≤ n) :
    (BitVec.ofNat 32 n - BitVec.ofNat 32 m).toNat ≤ n - m := by
  rw [BitVec.toNat_sub, BitVec.toNat_ofNat, BitVec.toNat_ofNat]
  omega

namespace Schedule

/-- Virtual time, counted from `start`, is behind the clock at the last time stamp, and so is the
horizon up to which the running loop calls jobs. -/
structure InTime {H A : Type} (start clock : ℕ) (a : Schedule H A) : Prop where
  last : ∃ l, start + a.time ≤ l ∧ l ≤ clock ∧ a.last = BitVec.ofNat 32 l
  loop : ∀ now horizon, a.loop = some (now, horizon) →
    ∃ l, start + horizon ≤ l ∧ l ≤ clock ∧ now = BitVec.ofNat 32 l ∧ a.time ≤ horizon

variable {H A : Type} {start clock : ℕ} {a : Schedule H A}

theorem inTime_boot (start : ℕ) : InTime start start (boot (BitVec.ofNat 32 start) : Schedule H A) :=
  ⟨⟨start, le_rfl, le_rfl, rfl⟩, fun _ _ h => absurd h (by simp [boot])⟩

theorem InTime.wait (h : InTime start clock a) {clock' : ℕ} (hle : clock ≤ clock') :
    InTime start clock' a := by
  constructor
  · obtain ⟨l, hstart, hclock, hlast⟩ := h.last
    exact ⟨l, hstart, hclock.trans hle, hlast⟩
  · intro now horizon hloop
    obtain ⟨l, hstart, hclock, hl⟩ := h.loop now horizon hloop
    exact ⟨l, hstart, hclock.trans hle, hl⟩

theorem InTime.time_le (h : InTime start clock a) : start + a.time ≤ clock := by
  obtain ⟨l, hstart, hclock, -⟩ := h.last
  exact hstart.trans hclock

theorem InTime.check [DecidableEq H] [DecidableEq A] (h : InTime start clock a) :
    InTime start clock (a.step (.check (BitVec.ofNat 32 clock))) := by
  obtain ⟨l, hstart, hclock, hlast⟩ := h.last
  simp only [Schedule.step]
  split
  · exact h
  · split
    · exact h
    · refine ⟨h.last, ?_⟩
      rintro now horizon heq
      obtain ⟨rfl, rfl⟩ := Prod.mk.inj (Option.some.inj heq)
      have hdiff := toNat_ofNat_sub_le hclock
      rw [← hlast] at hdiff
      exact ⟨clock, by omega, le_rfl, rfl, Nat.le_add_right _ _⟩

/-- The job that a turn of the loop takes off is due by the horizon. -/
theorem InTime.turn (h : InTime start clock a) {now : BitVec 32} {horizon : ℕ}
    (hloop : a.loop = some (now, horizon)) : InTime start clock (a.turn now horizon) := by
  cases ha : a.queue with
  | nil =>
    rw [turn_of_nil ha]
    exact ⟨h.last, h.loop⟩
  | cons x q =>
    rw [turn_of_cons ha]
    by_cases hle : x.1 ≤ horizon
    · obtain ⟨l, hstart, hclock, hnow, -⟩ := h.loop now horizon hloop
      rw [if_pos hle]
      constructor
      · have hx : start + x.1 ≤ l := by omega
        exact ⟨l, hx, hclock, hnow⟩
      · intro now' horizon' hloop'
        obtain ⟨rfl, rfl⟩ := Prod.mk.inj (Option.some.inj (hloop.symm.trans hloop'))
        exact ⟨l, hstart, hclock, hnow, hle⟩
    · rw [if_neg hle]
      exact ⟨h.last, fun _ _ hnone => absurd hnone (by simp)⟩

theorem InTime.step [DecidableEq H] [DecidableEq A] (h : InTime start clock a)
    {x : ℕ × Event H A} (hx : ReadsClock clock x) :
    InTime start (clockStep clock x) (a.step x.2) := by
  have hwait : InTime start (clockStep clock x) a := h.wait (Nat.le_add_right _ _)
  obtain ⟨ms, e⟩ := x
  cases e with
  | timeout msecs handler arg allocated =>
    cases allocated with
    | false => exact hwait
    | true => exact ⟨hwait.last, hwait.loop⟩
  | untimeout handler arg => exact ⟨hwait.last, hwait.loop⟩
  | restart now =>
    have hnow := hx now rfl
    exact ⟨⟨_, hwait.time_le, le_rfl, hnow⟩, hwait.loop⟩
  | check now =>
    rw [show now = _ from hx now rfl]
    exact hwait.check
  | turn =>
    simp only [Schedule.step]
    split
    · rename_i hloop
      split
      · exact hwait
      · exact hwait.turn hloop
    · exact hwait

theorem inTime_run [DecidableEq H] [DecidableEq A] (start : ℕ) {es : List (ℕ × Event H A)}
    (hes : Machine.Along clockStep ReadsClock start es) :
    InTime start (Machine.run clockStep start es)
      (Machine.run step (boot (BitVec.ofNat 32 start)) (es.map Prod.snd)) := by
  have hrun : ∀ (clock : ℕ) (a : Schedule H A), InTime start clock a →
      Machine.Along clockStep ReadsClock clock es →
      InTime start (Machine.run clockStep clock es) (Machine.run step a (es.map Prod.snd)) := by
    clear hes
    induction es with
    | nil => exact fun clock a h _ => h
    | cons x es ih =>
      intro clock a h hes
      rw [Machine.along_cons] at hes
      exact ih _ _ (h.step hes.1) hes.2
  exact hrun start _ (inTime_boot start) hes

end Schedule

/-- **The timeouts of lwIP.**  Whatever is set, removed and checked, and whatever the handlers do,
the list of relative times stands for a queue of jobs with due times in virtual time: a job is due
`msecs` after the due time of the last job taken off before it was set.  The handlers are called in
the order of their due times, for equal due times in the order in which they were set, and every job
set is waiting, called or removed, with its due time.  If `sys_now` gives the clock, and the first
time stamp is that of the clock `start`, virtual time is never ahead of the clock, so that a job is
due at most `msecs` after it was set, and no handler is called before its job is due. -/
theorem schedule_run {H A : Type} [DecidableEq H] [DecidableEq A] (start : ℕ)
    (es : List (ℕ × Event H A)) :
    let s := Machine.run step (boot (BitVec.ofNat 32 start)) (es.map Prod.snd)
    let a := Machine.run Schedule.step (Schedule.boot (BitVec.ofNat 32 start)) (es.map Prod.snd)
    Refines s a ∧ a.Ordered ∧
      (Machine.Along clockStep ReadsClock start es →
        start + a.time ≤ Machine.run clockStep start es ∧
          ∀ x ∈ a.fired, start + x.1 ≤ Machine.run clockStep start es) := by
  intro s a
  have hordered : a.Ordered := Schedule.ordered_run _ _
  refine ⟨refines_run _ _, hordered, fun hes => ?_⟩
  have htime := (Schedule.inTime_run start hes).time_le
  refine ⟨htime, fun x hx => ?_⟩
  have hpast := hordered.past x hx
  have htime' : start + a.time ≤ Machine.run clockStep start es := htime
  omega

/-- Virtual time stands still until a handler is called: with the job 1 due at 1000, the job 2,
set at 900 to be called after 200 ms, is due at 200 and is called at once. -/
theorem schedule_run_at_900 :
    let es : List (ℕ × Event ℕ Unit) := [(0, .timeout 1000#32 (some 1) () true),
      (900, .timeout 200#32 (some 2) () true), (0, .check 900#32), (0, .turn)]
    let a := Machine.run Schedule.step (Schedule.boot 0#32) (es.map Prod.snd)
    (Machine.run step (boot 0#32) (es.map Prod.snd)).called = [(2, ())] ∧
      ∀ x ∈ a.fired, 0 + x.1 ≤ Machine.run clockStep 0 es := by
  refine ⟨by decide, ((schedule_run 0 _).2.2 ?_).2⟩
  simp [ReadsClock, Event.reading, clockStep]

end Timers
end Lwip
