import Teensy3.Lib.Run
import Teensy3.Lwip.Pcb

/-!
# The TCP sender `tcptx`

`tcptx` of `lwiptst.ino` connects, sends `pkts` blocks, waits until all is acknowledged, and
closes.  It has four wait loops, and in each of them `ether_poll` may run the callbacks of its
pcb: `connect_callback`, which sets `connected` to `1`, and `tcperr_callback`, which sets it to
the error code and after which the pcb is deallocated.

The function is cut at every call that it makes.  One step takes one `Input`: what the
environment does at that point, namely the callbacks that run inside `ether_poll`, the result of
`tcp_write`, or the result of `tcp_sndbuf`.
-/

namespace Lwip
namespace Tcptx

open Machine

/-- What lwIP may do with the pcb inside one `ether_poll`. -/
inductive Callback
  /-- The connection is set up: `connect_callback`. -/
  | connected
  /-- Reset or abort: `tcperr_callback`, then the pcb is deallocated. -/
  | err (f : Fatal)
  /-- The end of a close that `tcptx` has asked for: the pcb is deallocated. -/
  | closed
  deriving DecidableEq

/-- The environment's part of one step; a step uses the field that belongs to its call. -/
structure Input where
  polled : List Callback
  wrote : ℤ
  sndbuf : ℕ

/-- The calls that `tcptx` makes with its pcb once it may be connected. -/
inductive Call
  | tcpWrite
  | tcpOutput
  | tcpSndbuf
  | tcpClose
  deriving DecidableEq

inductive Pc
  /-- In `while(!connected) ether_poll();`. -/
  | connecting
  /-- Before the `tcp_write` of block `i`. -/
  | write (i : ℕ)
  /-- Before the `ether_poll` after a `tcp_write` that returned `err`. -/
  | poll (i : ℕ) (err : ℤ)
  /-- Before the `tcp_output` of block `i`. -/
  | output (i : ℕ)
  /-- Before the `tcp_sndbuf` of the drain loop. -/
  | drain
  /-- Before the `ether_poll` of the drain loop. -/
  | drainPoll
  /-- Before `tcp_close`. -/
  | close
  | returned
  deriving DecidableEq

structure State where
  pc : Pc
  connected : ℤ
  pcb : Pcb
  /-- The calls made with the pcb after it was deallocated. -/
  deadCalls : List Call
  deriving DecidableEq

/-- The state at the first `ether_poll`, after `tcp_new`, `tcp_err`, `tcp_arg`, `tcp_bind`,
`tcp_sndbuf` and `tcp_connect`. -/
def init : State where
  pc := .connecting
  connected := 0
  pcb := tcpArg (tcpErr tcpNew (some .tcperrCallback)) .connected
  deadCalls := []

/-- One callback; there are none for a pcb that is gone. -/
def callback (s : State) (cb : Callback) : State :=
  if s.pcb.live then
    match cb with
    | .connected => { s with connected := 1 }
    | .err f => { s with connected := f.code, pcb := s.pcb.free }
    | .closed => if s.pc = .returned then { s with pcb := s.pcb.free } else s
  else s

def etherPoll (s : State) (cbs : List Callback) : State := cbs.foldl callback s

/-- A call with the pcb. -/
def State.use (s : State) (c : Call) : State :=
  if s.pcb.live then s else { s with deadCalls := s.deadCalls ++ [c] }

/-- The head of the `for` loop. -/
def loopHead (pkts i : ℕ) : Pc := if i < pkts then .write i else .drain

/-- One step of `tcptx(pkts)`, or of the main loop after its return. -/
def step (pkts sendqlth : ℕ) (s : State) (inp : Input) : State :=
  match s.pc with
  | .connecting =>
    let t := etherPoll s inp.polled
    if t.connected = 0 then t
    else if t.connected < 0 then { t with pc := .returned }
    else { t with pc := loopHead pkts 0 }
  | .write i => { s.use .tcpWrite with pc := .poll i inp.wrote }
  | .poll i err =>
    { etherPoll s inp.polled with pc := if err < 0 then .write i else .output i }
  | .output i => { s.use .tcpOutput with pc := loopHead pkts (i + 1) }
  | .drain =>
    { s.use .tcpSndbuf with pc := if inp.sndbuf ≠ sendqlth then .drainPoll else .close }
  | .drainPoll => { etherPoll s inp.polled with pc := .drain }
  | .close => { s.use .tcpClose with pc := .returned }
  | .returned => etherPoll s inp.polled

/-- The program counter is in the retry loop around `tcp_write`. -/
def Pc.inRetry : Pc → Bool
  | .write _ => true
  | .poll _ _ => true
  | _ => false

/-- The program counter is at an `ether_poll` of the send or of the drain loop. -/
def Pc.isPoll : Pc → Bool
  | .poll _ _ => true
  | .drainPoll => true
  | _ => false

/-- The connection is reset or aborted inside an `ether_poll` of the send or of the drain loop. -/
def ErrWhileSending (s : State) (inp : Input) : Prop :=
  s.pc.isPoll = true ∧ ∃ f, .err f ∈ inp.polled

/-! ### The callbacks of one `ether_poll` -/

theorem etherPoll_nil (s : State) : etherPoll s [] = s := rfl

theorem etherPoll_cons (s : State) (cb : Callback) (cbs : List Callback) :
    etherPoll s (cb :: cbs) = etherPoll (callback s cb) cbs := rfl

/-- Callbacks change neither the place in `tcptx` nor the calls it has made. -/
theorem etherPoll_frame (s : State) (cbs : List Callback) :
    (etherPoll s cbs).pc = s.pc ∧ (etherPoll s cbs).deadCalls = s.deadCalls := by
  induction cbs generalizing s with
  | nil => exact ⟨rfl, rfl⟩
  | cons cb cbs ih =>
    have hcb : (callback s cb).pc = s.pc ∧ (callback s cb).deadCalls = s.deadCalls := by
      unfold callback
      cases cb <;> split_ifs <;> exact ⟨rfl, rfl⟩
    rw [etherPoll_cons, (ih _).1, (ih _).2]
    exact hcb

@[simp] theorem etherPoll_pc (s : State) (cbs : List Callback) : (etherPoll s cbs).pc = s.pc :=
  (etherPoll_frame s cbs).1

@[simp] theorem etherPoll_deadCalls (s : State) (cbs : List Callback) :
    (etherPoll s cbs).deadCalls = s.deadCalls :=
  (etherPoll_frame s cbs).2

/-- Nothing happens to a pcb that is gone. -/
theorem etherPoll_of_dead {s : State} (h : s.pcb.live = false) (cbs : List Callback) :
    etherPoll s cbs = s := by
  induction cbs with
  | nil => rfl
  | cons cb cbs ih => rw [etherPoll_cons, show callback s cb = s by simp [callback, h], ih]

/-- Before the close, a pcb survives an `ether_poll` exactly if no error comes in it. -/
theorem etherPoll_live {s : State} (hpc : s.pc ≠ .returned) (h : s.pcb.live = true)
    (cbs : List Callback) : (etherPoll s cbs).pcb.live = true ↔ ¬ ∃ f, .err f ∈ cbs := by
  induction cbs generalizing s with
  | nil => simpa [etherPoll_nil] using h
  | cons cb cbs ih =>
    rw [etherPoll_cons]
    cases cb with
    | connected => simpa [callback, h] using ih (s := { s with connected := 1 }) hpc h
    | err f =>
      have hdead : (callback s (.err f)).pcb.live = false := by simp [callback, h, Pcb.free]
      rw [etherPoll_of_dead hdead, hdead]
      simp
    | closed => simpa [callback, h, hpc] using ih hpc h

/-- While `tcptx` runs, a pcb that is gone shows in `connected`. -/
def Tells (s : State) : Prop := s.pcb.live = false → s.connected < 0

theorem etherPoll_tells {s : State} (hpc : s.pc ≠ .returned) (h : Tells s) (cbs : List Callback) :
    Tells (etherPoll s cbs) := by
  induction cbs generalizing s with
  | nil => exact h
  | cons cb cbs ih =>
    rw [etherPoll_cons]
    cases hl : s.pcb.live with
    | false =>
      rw [show callback s cb = s by simp [callback, hl]]
      exact ih hpc h
    | true =>
      refine ih ?_ ?_
      · cases cb <;> simp [callback, hl, hpc]
      · cases cb with
        | connected => simp [callback, hl, Tells]
        | err f => simpa [callback, hl, Tells, Pcb.free] using f.code_neg
        | closed => simp [callback, hl, hpc, Tells]

/-! ### One step -/

section Step

variable {pkts sendqlth : ℕ} {s : State} {inp : Input}

theorem loopHead_cases (pkts i : ℕ) : loopHead pkts i = .write i ∨ loopHead pkts i = .drain := by
  unfold loopHead
  split_ifs
  · exact Or.inl rfl
  · exact Or.inr rfl

theorem use_of_live {c : Call} (h : s.pcb.live = true) : s.use c = s := by
  simp [State.use, h]

theorem use_deadCalls_ne_nil {c : Call} (h : s.pcb.live = false) : (s.use c).deadCalls ≠ [] := by
  simp [State.use, h]

/-- What holds as long as no error comes in the send and the drain loop: nothing has gone wrong,
`connected` tells the truth, and `tcptx` works with a live pcb once it is past the first loop. -/
structure SendInv (s : State) : Prop where
  clean : s.deadCalls = []
  tells : s.pc ≠ .returned → Tells s
  live : s.pc ≠ .connecting → s.pc ≠ .returned → s.pcb.live = true

theorem sendInv_init : SendInv init := by
  refine ⟨rfl, fun _ h => ?_, fun h => absurd rfl h⟩
  simp [init, tcpArg, tcpErr, tcpNew] at h

/-- With a live pcb, a step that only moves the program counter keeps the invariant. -/
theorem SendInv.move (h : SendInv s) (hl : s.pcb.live = true) (pc : Pc) :
    SendInv { s with pc := pc } :=
  ⟨h.clean, fun _ hdead => absurd hl (by simp [show s.pcb.live = false from hdead]), fun _ _ => hl⟩

/-- A call with the pcb, once `tcptx` is past its first loop. -/
theorem SendInv.use (h : SendInv s) (hcon : s.pc ≠ .connecting) (hret : s.pc ≠ .returned)
    (c : Call) (pc : Pc) : SendInv { s.use c with pc := pc } := by
  have hl := h.live hcon hret
  rw [use_of_live hl]
  exact h.move hl pc

/-- An `ether_poll` of the send or of the drain loop, without an error. -/
theorem SendInv.poll (h : SendInv s) (hpoll : s.pc.isPoll = true)
    (hinp : ¬ ErrWhileSending s inp) (pc : Pc) :
    SendInv { etherPoll s inp.polled with pc := pc } := by
  have hcon : s.pc ≠ .connecting := by
    intro hc
    simp [hc, Pc.isPoll] at hpoll
  have hret : s.pc ≠ .returned := by
    intro hc
    simp [hc, Pc.isPoll] at hpoll
  have hl : (etherPoll s inp.polled).pcb.live = true :=
    (etherPoll_live hret (h.live hcon hret) inp.polled).2 fun herr => hinp ⟨hpoll, herr⟩
  exact ⟨by simpa using h.clean, fun _ => etherPoll_tells hret (h.tells hret) _, fun _ _ => hl⟩

theorem sendInv_step (h : SendInv s) (hinp : ¬ ErrWhileSending s inp) :
    SendInv (step pkts sendqlth s inp) := by
  cases hpc : s.pc with
  | connecting =>
    have hret : s.pc ≠ .returned := by simp [hpc]
    have htells := etherPoll_tells hret (h.tells hret) inp.polled
    have hclean : (etherPoll s inp.polled).deadCalls = [] := by rw [etherPoll_deadCalls, h.clean]
    simp only [step, hpc]
    split_ifs with h0 hneg
    · exact ⟨hclean, fun _ => htells, fun hc => absurd (by simp [hpc]) hc⟩
    · exact ⟨hclean, fun hc => absurd rfl hc, fun _ hc => absurd rfl hc⟩
    · -- `connected` is positive, so no error has come
      have hl : (etherPoll s inp.polled).pcb.live = true := by
        by_contra hdead
        exact hneg (htells (by simpa using hdead))
      exact ⟨hclean, fun _ => htells, fun _ _ => hl⟩
  | write i =>
    simp only [step, hpc]
    exact h.use (by simp [hpc]) (by simp [hpc]) _ _
  | output i =>
    simp only [step, hpc]
    exact h.use (by simp [hpc]) (by simp [hpc]) _ _
  | drain =>
    simp only [step, hpc]
    exact h.use (by simp [hpc]) (by simp [hpc]) _ _
  | close =>
    simp only [step, hpc]
    exact h.use (by simp [hpc]) (by simp [hpc]) _ _
  | poll i err =>
    simp only [step, hpc]
    exact h.poll (by simp [hpc, Pc.isPoll]) hinp _
  | drainPoll =>
    simp only [step, hpc]
    exact h.poll (by simp [hpc, Pc.isPoll]) hinp _
  | returned =>
    simp only [step, hpc]
    exact ⟨by simpa using h.clean, fun hc => absurd (by simp [hpc]) hc,
      fun _ hc => absurd (by simp [hpc]) hc⟩

/-- A call that leaves no trace among the dead ones was made with a live pcb. -/
theorem live_of_use {c : Call} (hclean : (s.use c).deadCalls = []) : (s.use c).pcb.live = true := by
  cases hl : s.pcb.live with
  | true => rwa [use_of_live hl]
  | false => exact absurd hclean (use_deadCalls_ne_nil hl)

/-- `tcptx` comes to an `ether_poll` of its loops only from a call with the pcb. -/
theorem live_of_step_isPoll (hclean : (step pkts sendqlth s inp).deadCalls = [])
    (hpoll : (step pkts sendqlth s inp).pc.isPoll = true) :
    (step pkts sendqlth s inp).pcb.live = true := by
  cases hpc : s.pc with
  | write i =>
    simp only [step, hpc] at hclean ⊢
    exact live_of_use hclean
  | drain =>
    simp only [step, hpc] at hclean ⊢
    exact live_of_use hclean
  | connecting =>
    simp only [step, hpc] at hpoll
    split_ifs at hpoll
    · simp [hpc, Pc.isPoll] at hpoll
    · simp [Pc.isPoll] at hpoll
    · rcases loopHead_cases pkts 0 with he | he <;> simp [he, Pc.isPoll] at hpoll
  | output i =>
    simp only [step, hpc] at hpoll
    rcases loopHead_cases pkts (i + 1) with he | he <;> simp [he, Pc.isPoll] at hpoll
  | poll i err =>
    simp only [step, hpc] at hpoll
    split_ifs at hpoll <;> simp [Pc.isPoll] at hpoll
  | drainPoll => simp [step, hpc, Pc.isPoll] at hpoll
  | close => simp [step, hpc, Pc.isPoll] at hpoll
  | returned => simp [step, hpc, Pc.isPoll] at hpoll

/-- After an error in one of the loops the very next step is a call with the pcb that is gone. -/
theorem deadCall_of_err (hl : s.pcb.live = true) (herr : ErrWhileSending s inp) (inp' : Input) :
    (step pkts sendqlth (step pkts sendqlth s inp) inp').deadCalls ≠ [] := by
  obtain ⟨hpoll, herr⟩ := herr
  have hret : s.pc ≠ .returned := by
    intro hc
    simp [hc, Pc.isPoll] at hpoll
  have hdead : (etherPoll s inp.polled).pcb.live = false := by
    rw [← Bool.not_eq_true, etherPoll_live hret hl]
    exact not_not.2 herr
  cases hpc : s.pc with
  | poll i err =>
    by_cases hneg : err < 0
    · simp only [step, hpc, hneg, if_true]
      exact use_deadCalls_ne_nil hdead
    · simp only [step, hpc, hneg, if_false]
      exact use_deadCalls_ne_nil hdead
  | drainPoll =>
    simp only [step, hpc]
    exact use_deadCalls_ne_nil hdead
  | _ => simp [hpc, Pc.isPoll] at hpoll

end Step

/-! ### Whole runs -/

/-- **When `tcptx` is safe.** For every number of blocks and everything the environment may do,
`tcptx` makes no call with a pcb that is gone, and leaves its retry loop after an error, if and
only if the connection is not reset or aborted inside the `ether_poll` calls of its send and
drain loops. -/
theorem tcptx_safe_iff (pkts sendqlth : ℕ) (inp : ℕ → Input) :
    let st := trace (step pkts sendqlth) init inp
    ((∀ n, (st n).deadCalls = []) ∧
        ∀ n, (st n).pc.inRetry = true → (st n).pcb.live = false →
          ∃ m > n, (st m).pc.inRetry = false) ↔
      ∀ n, ¬ ErrWhileSending (st n) (inp n) := by
  intro st
  constructor
  · rintro ⟨hclean, -⟩ n herr
    have hl : (st n).pcb.live = true := by
      cases n with
      | zero => rfl
      | succ n => exact live_of_step_isPoll (hclean (n + 1)) herr.1
    exact deadCall_of_err hl herr (inp (n + 1)) (hclean (n + 2))
  · intro hC
    have hinv : ∀ n, SendInv (st n) :=
      trace_induction (C := fun s i => ¬ ErrWhileSending s i)
        (fun _ _ h hi => sendInv_step h hi) sendInv_init hC
    refine ⟨fun n => (hinv n).clean, fun n hretry hdead => ?_⟩
    -- the retry loop is never entered with a pcb that is gone
    have hl := (hinv n).live (by rintro hc; simp [hc, Pc.inRetry] at hretry)
      (by rintro hc; simp [hc, Pc.inRetry] at hretry)
    rw [hdead] at hl
    exact absurd hl (by decide)

/-- The peer accepts the connection, the send buffer is full at the first `tcp_write`, and a reset
comes with the `ether_poll` after it; from then on `tcp_write` returns `ERR_CONN`. -/
def resetInput : ℕ → Input
  | 0 => ⟨[.connected], -1, 0⟩
  | 1 => ⟨[], -1, 0⟩
  | 2 => ⟨[.err .rst], -1, 0⟩
  | _ => ⟨[], -13, 0⟩

/-- There `tcptx(1)` calls `tcp_write` with the pcb that is gone, and stays in its retry loop for
ever. -/
theorem reset_defeats_tcptx :
    (trace (step 1 5840) init resetInput 4).deadCalls = [.tcpWrite] ∧
      (trace (step 1 5840) init resetInput 3).pcb.live = false ∧
      ∀ n, (trace (step 1 5840) init resetInput (n + 1)).pc.inRetry = true := by
  refine ⟨by decide, by decide, fun n => ?_⟩
  have hneg : ∀ n, (resetInput n).wrote < 0
    | 0 | 1 | 2 => by decide
    | _ + 3 => by simp [resetInput]
  have hretry : (trace (step 1 5840) init resetInput (n + 1)).pc = .write 0 ∨
      ∃ err < 0, (trace (step 1 5840) init resetInput (n + 1)).pc = .poll 0 err := by
    induction n with
    | zero => exact Or.inl (by decide)
    | succ n ih =>
      rw [trace_succ]
      rcases ih with hpc | ⟨err, herr, hpc⟩
      · exact Or.inr ⟨_, hneg (n + 1), by simp [step, hpc]⟩
      · exact Or.inl (by simp [step, hpc, herr])
  rcases hretry with hpc | ⟨err, -, hpc⟩ <;> rw [hpc] <;> rfl

end Tcptx
end Lwip
