import Teensy3.Lwip.TimerCycle

/-!
# The timers of a stack that is not initialized

`lwipk66.c` adds the interface with `netif_add`, but nothing in it, nor in the sketches, calls
`lwip_init`, and so nothing calls `sys_timeouts_init`: the timers of ARP, DHCP and IGMP are never
set, and the timer of TCP is alone in the list.  When its handler stops it, the loop of
`sys_check_timeouts`, which has just called a handler, goes round once more and reads
`next_timeout->time` of an empty list.

* `Stack.Safe`: the loop has not read an empty list, and is not about to;
* `Uninitialized.step`: what an event does to this;
* `safe_iff_ticks_keep`: a run is safe exactly if every tick of TCP leaves a connection.
-/

namespace Lwip
namespace Timers

variable {a : Schedule Handler Unit} {h : Handler} {start : ℕ} {s : Stack}
  {running : Option Handler}

/-- Only the TCP timer has ever been set. -/
def Bare (a : Schedule Handler Unit) : Prop := ∀ x ∈ a.queue, x.2.h = some .tcpipTcpTimer

/-- The loop has not read an empty list, and is not about to. -/
def Stack.Safe (s : Stack) : Prop :=
  s.timers.nullDeref = false ∧ (s.timers.loop ≠ none → s.timers.nextTimeout ≠ [])

instance (s : Stack) : Decidable s.Safe := inferInstanceAs (Decidable (_ ∧ _))

/-- If the event is a tick of the TCP timer, there is a connection left after `tcp_tmr`. -/
def Stack.TickKeeps (s : Stack) : StackEvent → Prop
  | .turn during _ => s.due = some .tcpipTcpTimer →
    0 < (during.foldl Stack.pcbStep { s with timers := Timers.step s.timers .turn }).pcbs
  | _ => True

instance (s : Stack) : (e : StackEvent) → Decidable (s.TickKeeps e)
  | .turn _ _ => inferInstanceAs (Decidable (_ = _ → _ < _))
  | .pcb _ => .isTrue trivial
  | .wait _ => .isTrue trivial
  | .check => .isTrue trivial

theorem Bare.queue_eq_nil_iff (hbare : Bare a) : a.queue = [] ↔ pending a .tcpipTcpTimer = [] := by
  have hall : a.queue.filter (isCall .tcpipTcpTimer) = a.queue :=
    List.filter_eq_self.2 fun x hx => by simp [isCall, hbare x hx]
  rw [pending, hall, List.map_eq_nil_iff]

theorem Core.queue_eq_nil_iff (c : Core start s a none) (hbare : Bare a) :
    s.timers.nextTimeout = [] ↔ s.tcpipTcpTimerActive = false := by
  rw [c.refines.nil_iff, hbare.queue_eq_nil_iff, ← List.length_eq_zero_iff, c.tcp]
  by_cases hon : s.tcpipTcpTimerActive = true
  · simp [hon]
  · simp [hon]

theorem Core.safe_iff (c : Core start s a none) (hbare : Bare a) :
    s.Safe ↔ a.stuck = false ∧ (a.loop ≠ none → s.tcpipTcpTimerActive = true) := by
  have hloop : s.timers.loop = none ↔ a.loop = none := by
    rw [← c.refines.loop, Option.map_eq_none_iff]
  rw [Stack.Safe, c.refines.stuck, ne_eq, ne_eq, hloop, c.queue_eq_nil_iff hbare,
    Bool.not_eq_false]

theorem Core.bare_of_frame {b : Schedule Handler Unit} (c : Core start s b running)
    (hbare : ∀ h, h ≠ .tcpipTcpTimer → pending b h = []) : Bare b := by
  intro x hx
  obtain ⟨h, hh⟩ := c.handler x (List.mem_append_right _ hx)
  by_cases htcp : h = .tcpipTcpTimer
  · rw [hh, htcp]
  · have hnone := List.map_eq_nil_iff.1 (hbare h htcp)
    have hmem : x ∈ b.queue.filter (isCall h) := List.mem_filter.2 ⟨hx, by simp [isCall, hh]⟩
    rw [hnone] at hmem
    exact absurd hmem List.not_mem_nil

theorem Bare.pending (hbare : Bare a) (hh : h ≠ .tcpipTcpTimer) : Timers.pending a h = [] := by
  rw [Timers.pending, List.map_eq_nil_iff, List.filter_eq_nil_iff]
  intro x hx
  simpa [isCall, hbare x hx] using Ne.symm hh

/-- The state of a stack that was never initialized. -/
def Uninitialized (s : Stack) : Prop := ∃ a, Core 0 s a none ∧ Bare a

theorem active_pcbStep (e : PcbEvent) (hon : s.tcpipTcpTimerActive = true) :
    (s.pcbStep e).tcpipTcpTimerActive = true := by
  cases e <;> simp [Stack.pcbStep, Stack.tcpTimerNeeded, hon]

/-- One event of an uninitialized stack: it stays safe exactly if a tick keeps a connection. -/
theorem Uninitialized.step (hs : Uninitialized s) {e : StackEvent} (he : e.Allocated) :
    Uninitialized (s.step e) ∧ (s.Safe → ((s.step e).Safe ↔ s.TickKeeps e)) := by
  obtain ⟨a, c, hbare⟩ := hs
  cases e with
  | pcb e =>
    obtain ⟨b, hb, hframe⟩ := c.pcbStep he
    have hbare' : Bare b := hb.bare_of_frame fun h hh =>
      (hframe.pending h hh).trans (hbare.pending hh)
    refine ⟨⟨b, hb, hbare'⟩, fun hsafe => iff_of_true ?_ trivial⟩
    rw [c.safe_iff hbare] at hsafe
    refine (hb.safe_iff hbare').2 ⟨hframe.stuck.trans hsafe.1, fun hloop => ?_⟩
    exact active_pcbStep e (hsafe.2 (hframe.loop ▸ hloop))
  | wait ms =>
    exact ⟨⟨a, c.wait ms, hbare⟩, fun hsafe => iff_of_true hsafe trivial⟩
  | check =>
    have hc := c.check
    have hbare' : Bare (a.step (.check s.sysNow)) := by
      simp only [Schedule.step]
      split
      · exact hbare
      · split <;> exact hbare
    refine ⟨⟨_, hc, hbare'⟩, fun hsafe => iff_of_true ?_ trivial⟩
    have hq : a.queue = [] ↔ s.tcpipTcpTimerActive = false := by
      rw [← c.queue_eq_nil_iff hbare, c.refines.nil_iff]
    rw [c.safe_iff hbare] at hsafe
    rw [hc.safe_iff hbare']
    simp only [Schedule.step]
    split
    · exact hsafe
    · split
      · exact hsafe
      · rename_i hne
        have hon : s.tcpipTcpTimerActive = true := by simpa using mt hq.2 hne
        exact ⟨hsafe.1, fun _ => hon⟩
  | turn during allocated =>
    obtain ⟨hes, rfl⟩ := he
    rcases c.turn hes with ⟨hidle, hc⟩ | ⟨⟨l, hloop⟩, hstuck, hq, hc⟩ |
      ⟨now, horizon, x, q, hloop, hstuck, hq, hlt, hc⟩ |
      ⟨now, horizon, x, q, h, b, s', hloop, hstuck, hq, hle, hx, hframe, hb, hs', hturn⟩
    · refine ⟨⟨a, hc, hbare⟩, fun hsafe => iff_of_true ?_ ?_⟩
      · rw [c.safe_iff hbare] at hsafe
        refine (hc.safe_iff hbare).2 ⟨hsafe.1, fun hloop => ?_⟩
        exact absurd (hidle.resolve_right (by simp [hsafe.1])) hloop
      · intro hdue
        simp [due_of_idle c hidle] at hdue
    · refine ⟨⟨_, hc, hbare⟩, fun hsafe => ?_⟩
      rw [c.safe_iff hbare] at hsafe
      have hoff := (c.queue_eq_nil_iff hbare).1 (c.refines.nil_iff.2 hq)
      simp [hsafe.2 (by simp [hloop])] at hoff
    · refine ⟨⟨_, hc, hbare⟩, fun hsafe => iff_of_true ?_ ?_⟩
      · exact (hc.safe_iff hbare).2 ⟨hstuck, fun hloop => absurd rfl hloop⟩
      · intro hdue
        rw [due_of_cons c hloop hstuck hq, if_neg (not_le.2 hlt)] at hdue
        simp at hdue
    · have htcp : h = .tcpipTcpTimer := by
        have hx' := hbare x (by simp [hq])
        rw [hx] at hx'
        exact Option.some.inj hx'
      subst htcp
      have hnone : pending b .tcpipTcpTimer = [] :=
        List.eq_nil_of_length_eq_zero (by rw [hb.tcp, if_neg (by simp)])
      have hc := hb.restartTimer hnone
      have hbare' : ∀ k, k ≠ .tcpipTcpTimer → pending b k = [] := by
        intro k hk
        rw [hframe.pending k hk, pending_popped_of_ne hq hx (Ne.symm hk)]
        exact hbare.pending hk
      have hbare'' : Bare (if Handler.tcpipTcpTimer = .tcpipTcpTimer ∧ s'.pcbs = 0 then b
          else b.step Handler.tcpipTcpTimer.set) := by
        refine hc.bare_of_frame fun k hk => ?_
        split
        · exact hbare' k hk
        · rw [pending_timeout_of_ne (Ne.symm hk)]
          exact hbare' k hk
      have hsafe := hc.safe_iff hbare''
      rw [← hturn] at hc hsafe
      refine ⟨⟨_, hc, hbare''⟩, fun _ => hsafe.trans ?_⟩
      have hdue : s.due = some .tcpipTcpTimer := by
        rw [due_of_cons c hloop hstuck hq, if_pos hle, hx]
      have hkeeps : s.TickKeeps (.turn during true) ↔ 0 < s'.pcbs := by
        simp [Stack.TickKeeps, hdue, hs']
      have hbloop : b.loop ≠ none := by simp [hframe.loop, popped, hloop]
      have hbstuck : b.stuck = false := hframe.stuck.trans hstuck
      rw [hkeeps, hturn]
      by_cases hp : 0 < s'.pcbs
      · have hon : (s'.restartTimer true .tcpipTcpTimer).tcpipTcpTimerActive = true := by
          simp only [Stack.restartTimer, hp, if_true]
          exact hb.active rfl
        refine iff_of_true ⟨?_, fun _ => hon⟩ hp
        rw [if_neg fun h => hp.ne' h.2]
        exact hbstuck
      · have hoff : (s'.restartTimer true .tcpipTcpTimer).tcpipTcpTimerActive = false := by
          simp [Stack.restartTimer, hp]
        refine iff_of_false ?_ hp
        rw [if_pos ⟨rfl, Nat.eq_zero_of_not_pos hp⟩, hoff]
        exact fun hall => absurd (hall.2 hbloop) (by simp)

theorem uninitialized_reset : Uninitialized Stack.reset := by
  refine ⟨Schedule.boot 0#32, ⟨refines_boot 0#32, Schedule.ordered_boot 0#32, ?_, ?_, rfl, ?_, ?_,
    ⟨0, le_rfl, le_rfl, rfl⟩, ?_⟩, ?_⟩
  · exact fun x hx => absurd hx List.not_mem_nil
  · exact fun h => List.Pairwise.nil
  · simp
  · simp [Stack.reset]
  · exact fun _ _ hloop => by cases hloop
  · exact fun x hx => absurd hx List.not_mem_nil

/-- **Without initialization**, as `lwipk66.c` runs the stack, and if `memp_malloc` always has an
entry for `sys_timeout`: `sys_check_timeouts` never meets an empty list in its loop if and only if
every tick of the TCP timer leaves an active or waiting connection. -/
theorem safe_iff_ticks_keep (es : List StackEvent) (hes : ∀ e ∈ es, e.Allocated) :
    Machine.Always Stack.step Stack.Safe Stack.reset es ↔
      Machine.Along Stack.step Stack.TickKeeps Stack.reset es := by
  have hrun : ∀ s, Uninitialized s → s.Safe →
      (Machine.Always Stack.step Stack.Safe s es ↔ Machine.Along Stack.step Stack.TickKeeps s es) := by
    induction es with
    | nil => exact fun s _ hsafe => iff_of_true hsafe trivial
    | cons e es ih =>
      intro s hs hsafe
      obtain ⟨hnext, hiff⟩ := hs.step (hes e List.mem_cons_self)
      have ih := ih fun e he => hes e (List.mem_cons_of_mem _ he)
      rw [Machine.always_cons, Machine.along_cons, ← hiff hsafe]
      constructor
      · rintro ⟨-, hall⟩
        exact ⟨hall.head, (ih _ hnext hall.head).1 hall⟩
      · rintro ⟨hsafe', halong⟩
        exact ⟨hsafe, (ih _ hnext hsafe').2 halong⟩
  exact hrun _ uninitialized_reset ⟨rfl, fun h => absurd rfl h⟩

/-- A connection is made and goes away in the first tick: the next turn reads an empty list. -/
theorem not_safe_of_last_connection :
    ¬ Machine.Always Stack.step Stack.Safe Stack.reset
      [.pcb (.reg true), .wait 250, .check, .turn [.rmv] true] := by
  rw [safe_iff_ticks_keep _ (by simp [StackEvent.Allocated, PcbEvent.Allocated])]
  decide

end Timers
end Lwip
