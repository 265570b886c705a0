import Teensy3.Lwip.Timers

/-!
# The cyclic timers of the stack (`timers.c`)

`sys_timeouts_init` sets the timers of ARP, DHCP (two) and IGMP; each handler sets its own timer
again.  The timer of TCP runs on demand: `TCP_REG` calls `tcp_timer_needed`, and its handler stops
it when there are no active or waiting connections left.  The loop of `sys_check_timeouts` reads
`next_timeout->time` in every turn and does not look for an empty list.

* `Handler`, `Stack`, `StackEvent`, `step`: the timers with the number of connections;
* `cyclic_run`: after `sys_timeouts_init` the loop never meets an empty list, and there is one
  virtual time, never ahead of the clock, that all cyclic timers have kept up with;
* `check_returns`: the loop ends, and then no timer is due.
-/

namespace Lwip
namespace Timers

open DeltaQueue

/-- The handlers set by `timers.c`; their argument is always `NULL`. -/
inductive Handler
  | arpTimer
  | dhcpTimerCoarse
  | dhcpTimerFine
  | igmpTimer
  | tcpipTcpTimer
  deriving DecidableEq

/-- `ARP_TMR_INTERVAL`, `DHCP_COARSE_TIMER_MSECS`, `DHCP_FINE_TIMER_MSECS`, `IGMP_TMR_INTERVAL` and
`TCP_TMR_INTERVAL`. -/
def Handler.interval : Handler → BitVec 32
  | .arpTimer => 5000
  | .dhcpTimerCoarse => 60000
  | .dhcpTimerFine => 500
  | .igmpTimer => 100
  | .tcpipTcpTimer => 250

theorem Handler.interval_pos (h : Handler) : 0 < h.interval.toNat := by
  cases h <;> decide

/-- Setting the timer of `h`. -/
def Handler.set (h : Handler) : Event Handler Unit := .timeout h.interval (some h) () true

/-- The timers, the number of pcbs in `tcp_active_pcbs` and `tcp_tw_pcbs`, and the milliseconds
since the start, which `sys_now` gives modulo 2^32. -/
structure Stack where
  timers : State Handler Unit
  tcpipTcpTimerActive : Bool
  pcbs : ℕ
  clock : ℕ
  deriving DecidableEq

namespace Stack

def sysNow (s : Stack) : BitVec 32 := BitVec.ofNat 32 s.clock

def sysTimeout (s : Stack) (h : Handler) (allocated : Bool) : Stack :=
  { s with timers := Timers.step s.timers (.timeout h.interval (some h) () allocated) }

def tcpTimerNeeded (s : Stack) (allocated : Bool) : Stack :=
  if s.tcpipTcpTimerActive = false ∧ 0 < s.pcbs then
    { s with tcpipTcpTimerActive := true }.sysTimeout .tcpipTcpTimer allocated
  else s

end Stack

/-- `TCP_REG` and `TCP_RMV` for the lists of active and waiting pcbs, and `TCP_REG` for others. -/
inductive PcbEvent
  | reg (allocated : Bool)
  | regOther (allocated : Bool)
  | rmv
  deriving DecidableEq

def PcbEvent.Allocated : PcbEvent → Prop
  | .reg allocated => allocated = true
  | .regOther allocated => allocated = true
  | .rmv => True

namespace Stack

def pcbStep (s : Stack) : PcbEvent → Stack
  | .reg allocated => { s with pcbs := s.pcbs + 1 }.tcpTimerNeeded allocated
  | .regOther allocated => s.tcpTimerNeeded allocated
  | .rmv => { s with pcbs := s.pcbs - 1 }

/-- What a handler does after its `…_tmr()` function: it sets its timer again, but the one of TCP
only if it is still needed. -/
def restartTimer (s : Stack) (allocated : Bool) : Handler → Stack
  | .tcpipTcpTimer =>
    if 0 < s.pcbs then s.sysTimeout .tcpipTcpTimer allocated
    else { s with tcpipTcpTimerActive := false }
  | h => s.sysTimeout h allocated

/-- The handler that the next turn of the loop calls. -/
def due (s : Stack) : Option Handler :=
  match s.timers.loop, s.timers.nextTimeout with
  | some (_, diff), t :: _ => if t.time ≤ diff ∧ s.timers.nullDeref = false then t.h else none
  | _, _ => none

/-- One turn of the loop of `sys_check_timeouts`, with the handler.  `during` is what its
`…_tmr()` function, and the callbacks that this calls, do to the lists of pcbs. -/
def turn (s : Stack) (during : List PcbEvent) (allocated : Bool) : Stack :=
  let s' := { s with timers := Timers.step s.timers .turn }
  match s.due with
  | some h => (during.foldl pcbStep s').restartTimer allocated h
  | none => s'

end Stack

inductive StackEvent
  | pcb (e : PcbEvent)
  | wait (ms : ℕ)
  | check
  | turn (during : List PcbEvent) (allocated : Bool)
  deriving DecidableEq

/-- Every `sys_timeout` of the event gets an entry from `memp_malloc`. -/
def StackEvent.Allocated : StackEvent → Prop
  | .pcb e => e.Allocated
  | .wait _ => True
  | .check => True
  | .turn during allocated => (∀ e ∈ during, e.Allocated) ∧ allocated = true

namespace Stack

def step (s : Stack) : StackEvent → Stack
  | .pcb e => s.pcbStep e
  | .wait ms => { s with clock := s.clock + ms }
  | .check => { s with timers := Timers.step s.timers (.check s.sysNow) }
  | .turn during allocated => s.turn during allocated

/-- The state at reset: all variables are zero, and `sys_now()` starts there. -/
def reset : Stack := ⟨Timers.boot 0#32, false, 0, 0⟩

/-- The calls of `sys_timeouts_init`. -/
def initCalls (clock : ℕ) : List (Event Handler Unit) :=
  [Handler.arpTimer.set, Handler.dhcpTimerCoarse.set, Handler.dhcpTimerFine.set,
    Handler.igmpTimer.set, .restart (BitVec.ofNat 32 clock)]

/-- `sys_timeouts_init`, called at `clock` milliseconds. -/
def sysTimeoutsInit (clock : ℕ) : Stack where
  timers := Machine.run Timers.step (Timers.boot 0#32) (initCalls clock)
  tcpipTcpTimerActive := false
  pcbs := 0
  clock := clock

end Stack

/-! ### The schedule of the stack -/

/-- The jobs that call `h`. -/
def isCall (h : Handler) (x : ℕ × Job Handler Unit) : Bool := decide (x.2.h = some h)

/-- The due times for which `h` has been called. -/
def past (a : Schedule Handler Unit) (h : Handler) : List ℕ :=
  (a.fired.filter (isCall h)).map Prod.fst

/-- The due times for which `h` is still to be called. -/
def pending (a : Schedule Handler Unit) (h : Handler) : List ℕ :=
  (a.queue.filter (isCall h)).map Prod.fst

section Schedule

variable {a : Schedule Handler Unit} {h k : Handler}

theorem pending_timeout_of_ne (hk : h ≠ k) :
    pending (a.step h.set) k = pending a k := by
  have hcall : isCall k (a.time + h.interval.toNat, ⟨a.jobs.length, some h, ()⟩) = false := by
    simpa [isCall] using hk
  exact congrArg (List.map Prod.fst) (filter_enqueue_of_not hcall a.queue)

theorem pending_timeout_self (hnone : pending a h = []) :
    pending (a.step h.set) h = [a.time + h.interval.toNat] := by
  have hcall : isCall h (a.time + h.interval.toNat, ⟨a.jobs.length, some h, ()⟩) = true := by
    simp [isCall]
  exact congrArg (List.map Prod.fst) (filter_enqueue_of_none hcall (List.map_eq_nil_iff.1 hnone))

/-- What a timer's handler may do to the schedule before it sets its own timer again: the TCP timer
may be set. -/
structure Frame (a b : Schedule Handler Unit) : Prop where
  time : b.time = a.time
  fired : b.fired = a.fired
  stuck : b.stuck = a.stuck
  loop : b.loop = a.loop
  pending : ∀ k, k ≠ .tcpipTcpTimer → pending b k = pending a k

theorem Frame.refl (a : Schedule Handler Unit) : Frame a a := ⟨rfl, rfl, rfl, rfl, fun _ _ => rfl⟩

theorem Frame.trans {b c : Schedule Handler Unit} (hab : Frame a b) (hbc : Frame b c) : Frame a c :=
  ⟨hbc.time.trans hab.time, hbc.fired.trans hab.fired, hbc.stuck.trans hab.stuck,
    hbc.loop.trans hab.loop, fun k hk => (hbc.pending k hk).trans (hab.pending k hk)⟩

theorem Frame.past {b : Schedule Handler Unit} (hab : Frame a b) (k : Handler) :
    past b k = past a k := by
  rw [Timers.past, hab.fired, Timers.past]

theorem frame_timeout (a : Schedule Handler Unit) :
    Frame a (a.step Handler.tcpipTcpTimer.set) :=
  ⟨rfl, rfl, rfl, rfl, fun _ hk => pending_timeout_of_ne (Ne.symm hk)⟩

/-! ### The invariant that holds with and without initialization -/

/-- `running` is the handler that is being called, if there is one; `start` is the clock when the
time stamp was first set. -/
structure Core (start : ℕ) (s : Stack) (a : Schedule Handler Unit) (running : Option Handler) :
    Prop where
  refines : Refines s.timers a
  ordered : a.Ordered
  handler : ∀ x ∈ a.fired ++ a.queue, ∃ h, x.2.h = some h
  /-- No handler is called twice for one due time. -/
  strict : ∀ h, (past a h ++ pending a h).Pairwise (· < ·)
  /-- The TCP timer is set exactly when it is active, except in its own handler. -/
  tcp : (pending a .tcpipTcpTimer).length =
    if s.tcpipTcpTimerActive = true ∧ running ≠ some .tcpipTcpTimer then 1 else 0
  active : running = some .tcpipTcpTimer → s.tcpipTcpTimerActive = true
  needed : 0 < s.pcbs → s.tcpipTcpTimerActive = true
  inTime : a.InTime start s.clock

variable {start : ℕ} {s : Stack} {running : Option Handler}

theorem Core.pending_tcp (c : Core start s a running) (hoff : s.tcpipTcpTimerActive = false) :
    pending a .tcpipTcpTimer = [] := by
  have hlength := c.tcp
  rw [if_neg (by simp [hoff])] at hlength
  exact List.eq_nil_of_length_eq_zero hlength

/-- Setting a timer that is not in the list. -/
theorem Core.set_handler (c : Core start s a running) (h : Handler) :
    ∀ x ∈ (a.step h.set).fired ++ (a.step h.set).queue, ∃ k, x.2.h = some k := by
  intro x hx
  rcases List.mem_append.1 hx with hx | hx
  · exact c.handler x (List.mem_append_left _ hx)
  · rcases mem_enqueue.1 hx with rfl | hx
    · exact ⟨h, rfl⟩
    · exact c.handler x (List.mem_append_right _ hx)

theorem Core.past_le (c : Core start s a running) {t : ℕ} (ht : t ∈ past a h) : t ≤ a.time := by
  obtain ⟨x, hx, rfl⟩ := List.mem_map.1 ht
  exact c.ordered.past x (List.mem_of_mem_filter hx)

theorem Core.le_pending (c : Core start s a running) {t : ℕ} (ht : t ∈ pending a h) :
    a.time ≤ t := by
  obtain ⟨x, hx, rfl⟩ := List.mem_map.1 ht
  exact c.ordered.future x (List.mem_of_mem_filter hx)

theorem Core.set_strict (c : Core start s a running) (hnone : pending a h = []) (k : Handler) :
    (past (a.step h.set) k ++ pending (a.step h.set) k).Pairwise (· < ·) := by
  by_cases hk : h = k
  · subst hk
    have hpast := (List.pairwise_append.1 (c.strict h)).1
    rw [pending_timeout_self hnone]
    refine List.pairwise_append.2 ⟨hpast, List.pairwise_singleton _ _, fun t ht u hu => ?_⟩
    have hpos := h.interval_pos
    have hle := c.past_le ht
    rw [List.mem_singleton.1 hu]
    omega
  · rw [pending_timeout_of_ne hk]
    exact c.strict k

/-- `tcp_timer_needed` sets the timer when the first connection comes. -/
theorem Core.tcpTimerNeeded {n : ℕ} (c : Core start s a running) :
    ∃ b, Core start ({ s with pcbs := n }.tcpTimerNeeded true) b running ∧ Frame a b := by
  rw [Stack.tcpTimerNeeded]
  split
  · rename_i hon
    have hoff : s.tcpipTcpTimerActive = false := hon.1
    have hnot : running ≠ some .tcpipTcpTimer := fun hr => by simp [c.active hr] at hoff
    refine ⟨a.step Handler.tcpipTcpTimer.set, ⟨c.refines.step Handler.tcpipTcpTimer.set,
      c.ordered.step _, c.set_handler _, c.set_strict (c.pending_tcp hoff), ?_, fun _ => rfl,
      fun _ => rfl, ⟨c.inTime.last, c.inTime.loop⟩⟩, frame_timeout a⟩
    · rw [pending_timeout_self (c.pending_tcp hoff), if_pos ⟨rfl, hnot⟩]
      rfl
  · rename_i hon
    refine ⟨a, { c with needed := fun hn => ?_ }, Frame.refl a⟩
    by_contra hoff
    exact hon ⟨by simpa using hoff, hn⟩

theorem Core.pcbStep (c : Core start s a running) {e : PcbEvent} (he : e.Allocated) :
    ∃ b, Core start (s.pcbStep e) b running ∧ Frame a b := by
  cases e with
  | reg allocated =>
    rw [show allocated = true from he]
    exact c.tcpTimerNeeded
  | regOther allocated =>
    rw [show allocated = true from he]
    exact c.tcpTimerNeeded (n := s.pcbs)
  | rmv =>
    refine ⟨a, { c with needed := fun hn => c.needed ?_ }, Frame.refl a⟩
    exact lt_of_lt_of_le hn (Nat.sub_le _ _)

theorem Core.during (c : Core start s a running) {es : List PcbEvent}
    (hes : ∀ e ∈ es, e.Allocated) :
    ∃ b, Core start (es.foldl Stack.pcbStep s) b running ∧ Frame a b := by
  induction es generalizing s a with
  | nil => exact ⟨a, c, Frame.refl a⟩
  | cons e es ih =>
    obtain ⟨b, hb, hframe⟩ := c.pcbStep (hes e List.mem_cons_self)
    obtain ⟨b', hb', hframe'⟩ := ih hb fun e he => hes e (List.mem_cons_of_mem _ he)
    exact ⟨b', hb', hframe.trans hframe'⟩

theorem Core.wait (c : Core start s a running) (ms : ℕ) :
    Core start { s with clock := s.clock + ms } a running :=
  { c with inTime := c.inTime.wait (Nat.le_add_right _ _) }

theorem Core.check (c : Core start s a none) :
    Core start (s.step .check) (a.step (.check s.sysNow)) none := by
  have hrefines := c.refines.step (.check s.sysNow)
  have hordered := c.ordered.step (.check s.sysNow)
  have hinTime : (a.step (.check s.sysNow)).InTime start s.clock := c.inTime.check
  cases hl : a.loop with
  | some now =>
    have ha : a.step (.check s.sysNow) = a := by simp [Schedule.step, hl]
    rw [ha] at hrefines ⊢
    exact { c with refines := hrefines }
  | none =>
    by_cases hq : a.queue = []
    · have ha : a.step (.check s.sysNow) = a := by simp [Schedule.step, hl, hq]
      rw [ha] at hrefines ⊢
      exact { c with refines := hrefines }
    · have ha : a.step (.check s.sysNow) =
          { a with loop := some (s.sysNow, a.time + (s.sysNow - a.last).toNat) } := by
        simp [Schedule.step, hl, hq]
      rw [ha] at hrefines hordered hinTime ⊢
      exact { c with refines := hrefines, ordered := hordered, inTime := hinTime }

/-- The schedule when the first job, `x`, has been taken off. -/
def popped (a : Schedule Handler Unit) (x : ℕ × Job Handler Unit) (q : List (ℕ × Job Handler Unit))
    (now : BitVec 32) : Schedule Handler Unit :=
  { a with time := x.1, queue := q, fired := a.fired ++ [x], last := now }

section Popped

variable {x : ℕ × Job Handler Unit} {q : List (ℕ × Job Handler Unit)} {now : BitVec 32}

theorem pending_popped_self (now : BitVec 32) (hq : a.queue = x :: q) (hx : x.2.h = some h) :
    pending a h = x.1 :: pending (popped a x q now) h := by
  have hcall : isCall h x = true := by simpa [isCall] using hx
  rw [pending, hq, List.filter_cons_of_pos hcall]
  rfl

theorem pending_popped_of_ne (hq : a.queue = x :: q) (hx : x.2.h = some h) (hk : h ≠ k) :
    pending (popped a x q now) k = pending a k := by
  have hcall : ¬ isCall k x = true := by simpa [isCall, hx] using hk
  rw [pending, pending, hq, List.filter_cons_of_neg hcall]
  rfl

theorem past_popped_self (hx : x.2.h = some h) :
    past (popped a x q now) h = past a h ++ [x.1] := by
  have hcall : isCall h x = true := by simpa [isCall] using hx
  simp [past, popped, List.filter_append, hcall]

theorem past_popped_of_ne (hx : x.2.h = some h) (hk : h ≠ k) :
    past (popped a x q now) k = past a k := by
  have hcall : isCall k x = false := by simpa [isCall, hx] using hk
  simp [past, popped, List.filter_append, hcall]

end Popped

/-- The handler that the next turn calls, in terms of the schedule. -/
theorem due_of_cons (c : Core start s a none) {now : BitVec 32} {horizon : ℕ}
    {x : ℕ × Job Handler Unit} {q : List (ℕ × Job Handler Unit)} (hloop : a.loop = some (now, horizon))
    (hstuck : a.stuck = false) (hq : a.queue = x :: q) :
    s.due = if x.1 ≤ horizon then x.2.h else none := by
  have hl := c.refines.loop
  have hqueue := c.refines.queue
  have hnull : s.timers.nullDeref = false := c.refines.stuck.trans hstuck
  rw [hloop] at hl
  obtain ⟨⟨now', diff⟩, hsl, heq⟩ := Option.map_eq_some_iff.1 hl
  obtain ⟨rfl, rfl⟩ := Prod.mk.inj heq
  cases hs : s.timers.nextTimeout with
  | nil => simp [c.refines.nil_iff.1 hs] at hq
  | cons t ts =>
    rw [hs, hq, view_cons, dues_cons, List.map_cons, List.cons.injEq, Prod.mk.injEq] at hqueue
    obtain ⟨⟨hdue, hcall⟩, -⟩ := hqueue
    have hh : t.h = x.2.h := congrArg Prod.fst hcall
    have hdiff : t.time ≤ diff ↔ x.1 ≤ a.time + diff.toNat := by
      rw [← hdue, Nat.add_le_add_iff_left]
      exact Iff.rfl
    simp only [Stack.due, hsl, hs, hnull, hdiff, hh, and_true]

theorem due_of_nil (c : Core start s a none) (hq : a.queue = []) : s.due = none := by
  rw [Stack.due, c.refines.nil_iff.2 hq]
  split
  · simp_all
  · rfl

theorem due_of_idle (c : Core start s a none) (hl : a.loop = none ∨ a.stuck = true) :
    s.due = none := by
  have hloop := c.refines.loop
  have hnull := c.refines.stuck
  rw [Stack.due]
  split
  · rename_i hsl hs
    rcases hl with hl | hl
    · simp [hl, hsl] at hloop
    · rw [if_neg (by simp [hnull, hl])]
  · rfl

/-- Taking the first job off the list, up to the call of its handler. -/
theorem Core.pop (c : Core start s a none) {now : BitVec 32} {horizon : ℕ}
    {x : ℕ × Job Handler Unit} {q : List (ℕ × Job Handler Unit)} (hloop : a.loop = some (now, horizon))
    (hstuck : a.stuck = false) (hq : a.queue = x :: q) (hle : x.1 ≤ horizon) (hx : x.2.h = some h) :
    Core start { s with timers := Timers.step s.timers .turn } (popped a x q now) (some h) := by
  have ha : a.step .turn = popped a x q now := by
    simp [Schedule.step, hloop, hstuck, Schedule.turn_of_cons hq, hle, popped]
  have hturn : a.turn now horizon = popped a x q now := by
    rw [Schedule.turn_of_cons hq, if_pos hle]
    rfl
  refine ⟨ha ▸ c.refines.step .turn, ha ▸ c.ordered.step .turn, ?_, ?_, ?_, ?_, c.needed,
    hturn ▸ c.inTime.turn hloop⟩
  · have hall : (popped a x q now).fired ++ (popped a x q now).queue = a.fired ++ a.queue := by
      simp [popped, hq]
    rw [hall]
    exact c.handler
  · intro k
    have hstrict := c.strict k
    by_cases hk : h = k
    · subst hk
      rw [pending_popped_self now hq hx] at hstrict
      rwa [past_popped_self hx, List.append_assoc]
    · rwa [past_popped_of_ne hx hk, pending_popped_of_ne hq hx hk]
  · have htcp := c.tcp
    by_cases hh : h = .tcpipTcpTimer
    · subst hh
      rw [pending_popped_self now hq hx] at htcp
      rw [if_neg (by simp)]
      split at htcp
      · simpa using htcp
      · simp at htcp
    · rw [pending_popped_of_ne hq hx hh, htcp]
      simp [hh]
  · intro hh
    obtain rfl := Option.some.inj hh
    have htcp := c.tcp
    rw [pending_popped_self now hq hx] at htcp
    split at htcp
    · rename_i hon
      exact hon.1
    · simp at htcp

/-- A handler sets its timer again, or stops that of TCP. -/
theorem Core.restartTimer (c : Core start s a (some h)) (hnone : pending a h = []) :
    Core start (s.restartTimer true h)
      (if h = .tcpipTcpTimer ∧ s.pcbs = 0 then a else a.step h.set) none := by
  have htcp := c.tcp
  by_cases hh : h = .tcpipTcpTimer
  · subst hh
    by_cases hp : 0 < s.pcbs
    · simp only [Stack.restartTimer, hp, if_true, true_and, hp.ne', if_false]
      refine ⟨c.refines.step Handler.tcpipTcpTimer.set, c.ordered.step _, c.set_handler _,
        c.set_strict hnone, ?_, by simp, c.needed, ⟨c.inTime.last, c.inTime.loop⟩⟩
      have hon : (s.sysTimeout .tcpipTcpTimer true).tcpipTcpTimerActive = true := c.active rfl
      rw [pending_timeout_self hnone, if_pos ⟨hon, by simp⟩]
      rfl
    · simp only [Stack.restartTimer, true_and, Nat.eq_zero_of_not_pos hp, if_true]
      refine { c with tcp := ?_, active := by simp, needed := fun hn => absurd hn ?_ }
      · rw [hnone]
        rfl
      · simp
  · have hstep : s.restartTimer true h = s.sysTimeout h true := by
      cases h <;> first | rfl | exact absurd rfl hh
    rw [hstep, if_neg fun hp => hh hp.1]
    refine ⟨c.refines.step h.set, c.ordered.step _, c.set_handler _, c.set_strict hnone, ?_,
      by simp, c.needed, ⟨c.inTime.last, c.inTime.loop⟩⟩
    rw [pending_timeout_of_ne hh, htcp]
    simp [hh, Stack.sysTimeout]

/-- What a turn of the loop can do: nothing, if there is no loop; read an empty list; end the loop;
or call the handler of the first job, which sets its timer again. -/
theorem Core.turn (c : Core start s a none) {during : List PcbEvent}
    (hes : ∀ e ∈ during, e.Allocated) :
    (a.loop = none ∨ a.stuck = true) ∧ Core start (s.turn during true) a none ∨
    (∃ l, a.loop = some l) ∧ a.stuck = false ∧ a.queue = [] ∧
      Core start (s.turn during true) { a with stuck := true } none ∨
    (∃ now horizon x q, a.loop = some (now, horizon) ∧ a.stuck = false ∧ a.queue = x :: q ∧
      horizon < x.1 ∧ Core start (s.turn during true) { a with loop := none } none) ∨
    ∃ now horizon x q h b s', a.loop = some (now, horizon) ∧ a.stuck = false ∧ a.queue = x :: q ∧
      x.1 ≤ horizon ∧ x.2.h = some h ∧ Frame (popped a x q now) b ∧ Core start s' b (some h) ∧
      s' = during.foldl Stack.pcbStep { s with timers := Timers.step s.timers .turn } ∧
      s.turn during true = s'.restartTimer true h := by
  have hrefines := c.refines.step .turn
  by_cases hidle : a.loop = none ∨ a.stuck = true
  · left
    refine ⟨hidle, ?_⟩
    have ha : a.step .turn = a := by
      rcases hidle with hl | hl
      · simp [Schedule.step, hl]
      · simp only [Schedule.step, hl, if_true]
        split <;> rfl
    rw [ha] at hrefines
    simp only [Stack.turn, due_of_idle c hidle]
    exact { c with refines := hrefines }
  rw [not_or, Bool.not_eq_true] at hidle
  obtain ⟨⟨now, horizon⟩, hloop⟩ := Option.ne_none_iff_exists'.1 hidle.1
  have hstuck := hidle.2
  right
  by_cases hq : a.queue = []
  · left
    refine ⟨⟨_, hloop⟩, hstuck, hq, ?_⟩
    have ha : a.step .turn = { a with stuck := true } := by
      simp [Schedule.step, hloop, hstuck, Schedule.turn_of_nil hq]
    rw [ha] at hrefines
    simp only [Stack.turn, due_of_nil c hq]
    exact { c with
      refines := hrefines
      ordered := { c.ordered with }
      inTime := ⟨c.inTime.last, c.inTime.loop⟩ }
  · right
    obtain ⟨x, q, hq⟩ := List.exists_cons_of_ne_nil hq
    have hdue := due_of_cons c hloop hstuck hq
    by_cases hle : x.1 ≤ horizon
    · right
      obtain ⟨h, hx⟩ := c.handler x (by simp [hq])
      obtain ⟨b, hb, hframe⟩ := (c.pop hloop hstuck hq hle hx).during hes
      refine ⟨now, horizon, x, q, h, b, _, hloop, hstuck, hq, hle, hx, hframe, hb, rfl, ?_⟩
      rw [if_pos hle, hx] at hdue
      simp only [Stack.turn, hdue]
    · left
      refine ⟨now, horizon, x, q, hloop, hstuck, hq, not_le.1 hle, ?_⟩
      have ha : a.step .turn = { a with loop := none } := by
        simp [Schedule.step, hloop, hstuck, Schedule.turn_of_cons hq, hle]
      rw [ha] at hrefines
      rw [if_neg hle] at hdue
      simp only [Stack.turn, hdue]
      exact { c with
        refines := hrefines
        ordered := { c.ordered with }
        inTime := ⟨c.inTime.last, fun _ _ hnone => absurd hnone (by simp)⟩ }

/-! ### After `sys_timeouts_init` -/

/-- The first `n` multiples of the interval of `h`. -/
def multiples (h : Handler) (n : ℕ) : List ℕ :=
  (List.range n).map fun i => (i + 1) * h.interval.toNat

theorem multiples_succ (h : Handler) (n : ℕ) :
    multiples h (n + 1) = multiples h n ++ [(n + 1) * h.interval.toNat] := by
  simp [multiples, List.range_succ]

@[simp] theorem length_multiples (h : Handler) (n : ℕ) : (multiples h n).length = n := by
  simp [multiples]

/-- A cyclic timer has been called for the first multiples of its interval, and is set for the
next one; while its handler is running, it is the time for the last one. -/
structure Cyclic (a : Schedule Handler Unit) (running : Option Handler) : Prop where
  waiting : ∀ h, h ≠ .tcpipTcpTimer → running ≠ some h →
    ∃ n, past a h = multiples h n ∧ pending a h = [(n + 1) * h.interval.toNat]
  running : ∀ h, h ≠ .tcpipTcpTimer → running = some h →
    ∃ n, past a h = multiples h n ∧ pending a h = [] ∧ a.time = n * h.interval.toNat

theorem Cyclic.queue_ne_nil (y : Cyclic a none) : a.queue ≠ [] := by
  intro hq
  obtain ⟨n, -, hpending⟩ := y.waiting .arpTimer (by decide) (by simp)
  simp [pending, hq] at hpending

theorem Cyclic.frame {b : Schedule Handler Unit} (y : Cyclic a running) (hab : Frame a b) :
    Cyclic b running := by
  constructor
  · intro h hh hr
    rw [hab.past, hab.pending h hh]
    exact y.waiting h hh hr
  · intro h hh hr
    rw [hab.past, hab.pending h hh, hab.time]
    exact y.running h hh hr

theorem Cyclic.pop (y : Cyclic a none) {x : ℕ × Job Handler Unit} {q : List (ℕ × Job Handler Unit)}
    (hq : a.queue = x :: q) (hx : x.2.h = some h) (now : BitVec 32) :
    Cyclic (popped a x q now) (some h) := by
  constructor
  · intro k hk hr
    have hne : h ≠ k := fun heq => hr (congrArg some heq)
    rw [past_popped_of_ne hx hne, pending_popped_of_ne hq hx hne]
    exact y.waiting k hk (by simp)
  · intro k hk hr
    obtain rfl := Option.some.inj hr
    obtain ⟨n, hpast, hpending⟩ := y.waiting h hk (by simp)
    rw [pending_popped_self now hq hx, List.cons.injEq] at hpending
    refine ⟨n + 1, ?_, hpending.2, hpending.1⟩
    rw [past_popped_self hx, hpast, hpending.1, multiples_succ]

theorem Cyclic.restartTimer (y : Cyclic a (some h)) (n : ℕ) :
    Cyclic (if h = .tcpipTcpTimer ∧ n = 0 then a else a.step h.set) none := by
  refine ⟨fun k hk _ => ?_, fun _ _ hr => by simp at hr⟩
  by_cases hne : h = k
  · subst hne
    obtain ⟨m, hpast, hpending, htime⟩ := y.running h hk rfl
    rw [if_neg fun hp => hk hp.1]
    refine ⟨m, hpast, ?_⟩
    rw [pending_timeout_self hpending, htime, Nat.succ_mul]
  · obtain ⟨m, hpast, hpending⟩ := y.waiting k hk (by simpa using hne)
    refine ⟨m, ?_, ?_⟩
    · split <;> exact hpast
    · split
      · exact hpending
      · rw [pending_timeout_of_ne hne]
        exact hpending

/-- When a handler is called, its timer is not set. -/
theorem Core.pending_running (c : Core start s a (some h)) (y : Cyclic a (some h)) :
    pending a h = [] := by
  by_cases hh : h = .tcpipTcpTimer
  · subst hh
    exact List.eq_nil_of_length_eq_zero (by rw [c.tcp, if_neg (by simp)])
  · obtain ⟨n, -, hpending, -⟩ := y.running h hh rfl
    exact hpending

/-- The invariant of a stack that was initialized at `start`. -/
def Kept (start : ℕ) (s : Stack) (a : Schedule Handler Unit) : Prop :=
  Core start s a none ∧ Cyclic a none ∧ a.stuck = false

/-- A turn of the loop calls one more handler, or ends the loop. -/
theorem Kept.turn (k : Kept start s a) {during : List PcbEvent} (hes : ∀ e ∈ during, e.Allocated) :
    ∃ b, Kept start (s.turn during true) b ∧
      (a.loop = none ∧ b = a ∨
        (∃ now horizon, a.loop = some (now, horizon) ∧ (∀ x ∈ a.queue, horizon < x.1) ∧
          b = { a with loop := none }) ∨
        a.loop ≠ none ∧ b.loop = a.loop ∧ b.fired.length = a.fired.length + 1) := by
  obtain ⟨c, y, hstuck⟩ := k
  rcases c.turn hes with ⟨hidle, hc⟩ | ⟨-, -, hq, -⟩ |
    ⟨now, horizon, x, q, hloop, -, hq, hlt, hc⟩ |
    ⟨now, horizon, x, q, h, b, s', hloop, -, hq, hle, hx, hframe, hb, -, hturn⟩
  · have hl : a.loop = none := hidle.resolve_right (by simp [hstuck])
    exact ⟨a, ⟨hc, y, hstuck⟩, .inl ⟨hl, rfl⟩⟩
  · exact absurd hq y.queue_ne_nil
  · refine ⟨_, ⟨hc, { y with }, hstuck⟩, .inr (.inl ⟨now, horizon, hloop, ?_, rfl⟩)⟩
    intro z hz
    have hpair := (List.pairwise_append.1 c.ordered.pairwise).2.1
    rw [hq] at hz hpair
    rcases List.mem_cons.1 hz with rfl | hz
    · exact hlt
    · exact hlt.trans_le ((List.pairwise_cons.1 hpair).1 z hz).le
  · have hy := (y.pop hq hx now).frame hframe
    have hc := hb.restartTimer (hb.pending_running hy)
    rw [← hturn] at hc
    refine ⟨_, ⟨hc, hy.restartTimer s'.pcbs, ?_⟩, .inr (.inr ⟨by simp [hloop], ?_, ?_⟩)⟩
    · have hb' : b.stuck = false := hframe.stuck.trans hstuck
      split <;> exact hb'
    · have hb' : b.loop = a.loop := hframe.loop
      split <;> exact hb'
    · have hb' : b.fired.length = a.fired.length + 1 := by
        rw [hframe.fired]
        exact List.length_append
      split <;> exact hb'

theorem Kept.step (k : Kept start s a) {e : StackEvent} (he : e.Allocated) :
    ∃ b, Kept start (s.step e) b := by
  cases e with
  | pcb e =>
    obtain ⟨b, hb, hframe⟩ := k.1.pcbStep he
    exact ⟨b, hb, k.2.1.frame hframe, hframe.stuck.trans k.2.2⟩
  | wait ms => exact ⟨a, k.1.wait ms, k.2⟩
  | check =>
    refine ⟨_, k.1.check, ?_⟩
    simp only [Schedule.step]
    split
    · exact k.2
    · split
      · exact k.2
      · exact ⟨{ k.2.1 with }, k.2.2⟩
  | turn during allocated =>
    obtain ⟨hes, rfl⟩ := he
    obtain ⟨b, hb, -⟩ := k.turn hes
    exact ⟨b, hb⟩

/-- How often `h` has been called. -/
def Stack.count (s : Stack) (h : Handler) : ℕ :=
  (s.timers.called.filter fun call => decide (call.1 = h)).length

theorem Core.count_eq (c : Core start s a running) (h : Handler) :
    s.count h = (past a h).length := by
  rw [Stack.count, c.refines.called, past, List.length_map]
  induction a.fired with
  | nil => rfl
  | cons x q ih =>
    rw [List.flatMap_cons, List.filter_append, List.length_append, ih, List.filter_cons]
    cases hx : x.2.h with
    | none => simp [isCall, hx]
    | some k =>
      by_cases hk : k = h
      · simp [isCall, hx, hk, Nat.add_comm]
      · simp [isCall, hx, hk]

/-- Virtual time and the number of calls of a cyclic timer. -/
theorem Kept.count_bounds (k : Kept start s a) {h : Handler} (hh : h ≠ .tcpipTcpTimer) :
    s.count h * h.interval.toNat ≤ a.time ∧ a.time ≤ (s.count h + 1) * h.interval.toNat ∧
      (s.count h + 1) * h.interval.toNat ∈ pending a h := by
  obtain ⟨c, y, -⟩ := k
  obtain ⟨n, hpast, hpending⟩ := y.waiting h hh (by simp)
  have hcount : s.count h = n := by rw [c.count_eq, hpast, length_multiples]
  have hnext : (n + 1) * h.interval.toNat ∈ pending a h := by simp [hpending]
  rw [hcount]
  refine ⟨?_, c.le_pending hnext, hnext⟩
  cases n with
  | zero => simp
  | succ n =>
    refine c.past_le (h := h) ?_
    rw [hpast, multiples_succ]
    simp

theorem kept_init (start : ℕ) : ∃ a, Kept start (Stack.sysTimeoutsInit start) a := by
  have hrefines := refines_run 0#32 (Stack.initCalls start)
  have hordered := Schedule.ordered_run 0#32 (Stack.initCalls start)
  refine ⟨_, ⟨hrefines, hordered, ?_, ?_, rfl, by simp, by simp [Stack.sysTimeoutsInit],
    ⟨⟨start, le_rfl, le_rfl, rfl⟩, fun _ _ hloop => by cases hloop⟩⟩, ⟨?_, by simp⟩, rfl⟩
  · show ∀ x ∈ [(100, (⟨3, some .igmpTimer, ()⟩ : Job Handler Unit)),
      (500, ⟨2, some .dhcpTimerFine, ()⟩), (5000, ⟨0, some .arpTimer, ()⟩),
      (60000, ⟨1, some .dhcpTimerCoarse, ()⟩)], ∃ h, x.2.h = some h
    simp
  · intro h
    cases h <;> first | exact List.Pairwise.nil | exact List.pairwise_singleton (· < ·) _
  · intro h hh _
    refine ⟨0, ?_⟩
    cases h <;> first | exact ⟨rfl, rfl⟩ | exact absurd rfl hh

theorem kept_run (start : ℕ) {es : List StackEvent} (hes : ∀ e ∈ es, e.Allocated) :
    ∃ a, Kept start (Machine.run Stack.step (Stack.sysTimeoutsInit start) es) a := by
  have hrun : ∀ s, (∃ a, Kept start s a) → ∃ a, Kept start (Machine.run Stack.step s es) a := by
    induction es with
    | nil => exact fun s hs => hs
    | cons e es ih =>
      rintro s ⟨a, ha⟩
      exact ih (fun e he => hes e (List.mem_cons_of_mem _ he)) _ (ha.step (hes e List.mem_cons_self))
  exact hrun _ (kept_init start)

/-- **The cyclic timers.**  After `sys_timeouts_init`, if `memp_malloc` always has an entry for
`sys_timeout`: whatever connections come and go and however late the clock is looked at, the loop of
`sys_check_timeouts` never reads an empty list.  All cyclic timers have been called for the multiples
of their intervals up to one virtual time, which is not ahead of the clock. -/
theorem cyclic_run (start : ℕ) (es : List StackEvent) (hes : ∀ e ∈ es, e.Allocated) :
    let s := Machine.run Stack.step (Stack.sysTimeoutsInit start) es
    s.timers.nullDeref = false ∧ ∃ v, start + v ≤ s.clock ∧ ∀ h, h ≠ .tcpipTcpTimer →
      s.count h * h.interval.toNat ≤ v ∧ v ≤ (s.count h + 1) * h.interval.toNat := by
  obtain ⟨a, k⟩ := kept_run start hes
  refine ⟨k.1.refines.stuck.trans k.2.2, a.time, ?_, fun h hh => ?_⟩
  · exact k.1.inTime.time_le
  · obtain ⟨hlow, hhigh, -⟩ := k.count_bounds hh
    exact ⟨hlow, hhigh⟩

/-- Half a second, looked at twice: the fine DHCP timer and that of IGMP. -/
theorem cyclic_run_half_second :
    let s := Machine.run Stack.step (Stack.sysTimeoutsInit 7)
      [.wait 300, .check, .turn [] true, .turn [.reg true] true, .turn [] true, .wait 200]
    s.timers.nullDeref = false ∧ ∃ v, 7 + v ≤ s.clock ∧ ∀ h, h ≠ .tcpipTcpTimer →
      s.count h * h.interval.toNat ≤ v ∧ v ≤ (s.count h + 1) * h.interval.toNat :=
  cyclic_run 7 _ (by simp [StackEvent.Allocated, PcbEvent.Allocated])

/-! ### The loop ends -/

theorem length_le_of_pairwise_lt {l : List ℕ} {n : ℕ} (hl : l.Pairwise (· < ·))
    (hn : ∀ t ∈ l, t < n) : l.length ≤ n := by
  have hnodup : l.Nodup := hl.imp fun h => h.ne
  have hsub : l ⊆ List.range n := fun t ht => List.mem_range.2 (hn t ht)
  have hle := (hnodup.subperm hsub).length_le
  rwa [List.length_range] at hle

/-- Each handler has been called at most once for each due time up to now. -/
theorem Core.length_fired_le (c : Core start s a running) : a.fired.length ≤ 5 * (a.time + 1) := by
  have hpast : ∀ h, (past a h).length ≤ a.time + 1 := by
    intro h
    refine length_le_of_pairwise_lt (List.pairwise_append.1 (c.strict h)).1 fun t ht => ?_
    exact Nat.lt_succ_of_le (c.past_le ht)
  have hhandler : ∀ x ∈ a.fired, ∃ h, x.2.h = some h :=
    fun x hx => c.handler x (List.mem_append_left _ hx)
  have hsum : a.fired.length = (past a .arpTimer).length + (past a .dhcpTimerCoarse).length +
      (past a .dhcpTimerFine).length + (past a .igmpTimer).length +
      (past a .tcpipTcpTimer).length := by
    simp only [past, List.length_map]
    generalize a.fired = l at hhandler ⊢
    induction l with
    | nil => rfl
    | cons x q ih =>
      obtain ⟨h, hx⟩ := hhandler x List.mem_cons_self
      have hq := ih fun y hy => hhandler y (List.mem_cons_of_mem _ hy)
      cases h <;> simp [isCall, hx] at hq ⊢ <;> omega
  have h1 := hpast .arpTimer
  have h2 := hpast .dhcpTimerCoarse
  have h3 := hpast .dhcpTimerFine
  have h4 := hpast .igmpTimer
  have h5 := hpast .tcpipTcpTimer
  omega

/-- Once the loop has ended, turns do nothing. -/
theorem Kept.turns_idle (k : Kept start s a) (hl : a.loop = none) {ts : List (List PcbEvent)}
    (hts : ∀ es ∈ ts, ∀ e ∈ es, e.Allocated) :
    Kept start (Machine.run Stack.step s (ts.map (StackEvent.turn · true))) a := by
  induction ts generalizing s with
  | nil => exact k
  | cons es ts ih =>
    obtain ⟨b, hb, hcases⟩ := k.turn (hts es List.mem_cons_self)
    have hba : b = a := by
      rcases hcases with ⟨-, hba⟩ | ⟨now, horizon, hloop, -⟩ | ⟨hloop, -⟩
      · exact hba
      · simp [hl] at hloop
      · exact absurd hl hloop
    rw [hba] at hb
    exact ih hb fun es hes => hts es (List.mem_cons_of_mem _ hes)

/-- The loop ends before there are more calls than handlers and due times, and then no timer is
due. -/
theorem Kept.turns (k : Kept start s a) {now : BitVec 32} {horizon : ℕ}
    (hl : a.loop = some (now, horizon)) {ts : List (List PcbEvent)}
    (hts : ∀ es ∈ ts, ∀ e ∈ es, e.Allocated)
    (hlength : 5 * (horizon + 1) < a.fired.length + ts.length) :
    ∃ b, Kept start (Machine.run Stack.step s (ts.map (StackEvent.turn · true))) b ∧
      b.loop = none ∧ b.time ≤ horizon ∧ ∀ x ∈ b.queue, horizon < x.1 := by
  obtain ⟨-, -, -, -, htime⟩ := k.1.inTime.loop now horizon hl
  induction ts generalizing s a with
  | nil =>
    have hfired := k.1.length_fired_le
    simp only [List.length_nil] at hlength
    omega
  | cons es ts ih =>
    have hts' : ∀ es ∈ ts, ∀ e ∈ es, e.Allocated :=
      fun es hes => hts es (List.mem_cons_of_mem _ hes)
    obtain ⟨b, hb, hcases⟩ := k.turn (hts es List.mem_cons_self)
    rw [List.map_cons, Machine.run_cons]
    rcases hcases with ⟨hnone, -⟩ | ⟨now', horizon', hloop, hqueue, rfl⟩ | ⟨-, hloop, hfired⟩
    · simp [hl] at hnone
    · obtain ⟨rfl, rfl⟩ := Prod.mk.inj (Option.some.inj (hl.symm.trans hloop))
      exact ⟨_, hb.turns_idle rfl hts', rfl, htime, hqueue⟩
    · rw [hl] at hloop
      obtain ⟨-, -, -, -, htime'⟩ := hb.1.inTime.loop now horizon hloop
      refine ih hb hloop hts' ?_ htime'
      rw [List.length_cons] at hlength
      omega

/-- **`sys_check_timeouts` returns**, if `memp_malloc` always has an entry for `sys_timeout`.  After
finitely many turns of the loop, however many connections its handlers make or drop, each cyclic timer
has been called as often as its interval fits into the virtual time plus the time since the last call
of a handler. -/
theorem check_returns (start : ℕ) (es : List StackEvent) (hes : ∀ e ∈ es, e.Allocated)
    (hidle : (Machine.run Stack.step (Stack.sysTimeoutsInit start) es).timers.loop = none) :
    let s := Machine.run Stack.step (Stack.sysTimeoutsInit start) es
    ∃ v n, start + v ≤ s.clock ∧
      (∀ h, h ≠ .tcpipTcpTimer →
        s.count h * h.interval.toNat ≤ v ∧ v ≤ (s.count h + 1) * h.interval.toNat) ∧
      ∀ ts : List (List PcbEvent), (∀ es ∈ ts, ∀ e ∈ es, e.Allocated) → n ≤ ts.length →
        let s' := Machine.run Stack.step s (.check :: ts.map (StackEvent.turn · true))
        s'.timers.loop = none ∧ s'.timers.nullDeref = false ∧ ∀ h, h ≠ .tcpipTcpTimer →
          s'.count h =
            (v + (s.sysNow - s.timers.timeoutsLastTime).toNat) / h.interval.toNat := by
  intro s
  obtain ⟨a, k⟩ : ∃ a, Kept start s a := kept_run start hes
  have hal : a.loop = none := by
    rw [← k.1.refines.loop, hidle]
    rfl
  set horizon := a.time + (s.sysNow - a.last).toNat with hhorizon
  have hcheck : a.step (.check s.sysNow) = { a with loop := some (s.sysNow, horizon) } := by
    simp [Schedule.step, hal, k.2.1.queue_ne_nil, hhorizon]
  have kcheck : Kept start (s.step .check) { a with loop := some (s.sysNow, horizon) } :=
    ⟨hcheck ▸ k.1.check, { k.2.1 with }, k.2.2⟩
  refine ⟨a.time, 5 * (horizon + 1) + 1, k.1.inTime.time_le, fun h hh => ?_, ?_⟩
  · obtain ⟨hlow, hhigh, -⟩ := k.count_bounds hh
    exact ⟨hlow, hhigh⟩
  · intro ts hts hlength
    obtain ⟨b, kb, hbl, htime, hqueue⟩ := kcheck.turns rfl hts
      (show 5 * (horizon + 1) < a.fired.length + ts.length by omega)
    have hloop := kb.1.refines.loop
    rw [hbl, Option.map_eq_none_iff] at hloop
    refine ⟨hloop, kb.1.refines.stuck.trans kb.2.2, fun h hh => ?_⟩
    obtain ⟨hlow, -, hnext⟩ := kb.count_bounds hh
    obtain ⟨x, hx, hdue⟩ := List.mem_map.1 hnext
    have hlate := hqueue x (List.mem_of_mem_filter hx)
    have hlast : s.timers.timeoutsLastTime = a.last := k.1.refines.last
    rw [hlast, ← hhorizon]
    exact (Nat.div_eq_of_lt_le (hlow.trans htime) (hdue ▸ hlate)).symm

/-- The first 250 ms: the timer of IGMP has been called twice when the loop has ended. -/
theorem check_returns_first :
    (Machine.run Stack.step (Stack.sysTimeoutsInit 7) [.wait 250]).timers.loop = none ∧
      let s := Machine.run Stack.step (Stack.sysTimeoutsInit 7) [.wait 250]
      ∃ v n, 7 + v ≤ s.clock ∧
        (∀ h, h ≠ .tcpipTcpTimer →
          s.count h * h.interval.toNat ≤ v ∧ v ≤ (s.count h + 1) * h.interval.toNat) ∧
        ∀ ts : List (List PcbEvent), (∀ es ∈ ts, ∀ e ∈ es, e.Allocated) → n ≤ ts.length →
          let s' := Machine.run Stack.step s (.check :: ts.map (StackEvent.turn · true))
          s'.timers.loop = none ∧ s'.timers.nullDeref = false ∧ ∀ h, h ≠ .tcpipTcpTimer →
            s'.count h =
              (v + (s.sysNow - s.timers.timeoutsLastTime).toNat) / h.interval.toNat :=
  ⟨rfl, check_returns 7 [.wait 250] (by simp [StackEvent.Allocated]) rfl⟩

end Schedule

end Timers
end Lwip
