import Mathlib.Tactic

/-!
# TCP control blocks, as far as error callbacks are concerned

What the sketches rely on of lwIP (`tcp.h`, `tcp.c`, `tcp_in.c`): a connection pcb has a field
`errf`, a listening pcb (`struct tcp_pcb_listen`) has none; both have `callback_arg`, which
`tcp_alloc` clears, `tcp_arg` sets, `tcp_listen` copies to the listening pcb and
`tcp_listen_input` copies from there to each new connection.  On a reset or an abort lwIP calls
`errf(callback_arg, err)`, if it is set, and deallocates the pcb.
-/

namespace Lwip

/-- The error codes that lwIP passes to an error callback. -/
inductive Fatal
  | abrt
  | rst
  deriving DecidableEq

/-- `ERR_ABRT` and `ERR_RST` of `err.h`. -/
def Fatal.code : Fatal → ℤ
  | .abrt => -10
  | .rst => -11

theorem Fatal.code_neg (f : Fatal) : f.code < 0 := by
  cases f <;> decide

/-- The pointers that the sketches pass as `callback_arg`: none, or the address of the local
variable `connected` of `tcptx`. -/
inductive Arg
  | null
  | connected
  deriving DecidableEq

/-- The error callbacks of the sketches.  Both store the error code through `arg`. -/
inductive ErrFn
  | tcperrCallback
  | listenErrCallback
  deriving DecidableEq

inductive PcbKind
  | listen
  | connection
  deriving DecidableEq

structure Pcb where
  kind : PcbKind
  /-- Not yet deallocated. -/
  live : Bool
  callbackArg : Arg
  errf : Option ErrFn
  /-- How often `tcp_err` has been applied to it. -/
  errCalls : ℕ
  deriving DecidableEq

def tcpNew : Pcb := ⟨.connection, true, .null, none, 0⟩

def tcpArg (p : Pcb) (arg : Arg) : Pcb := { p with callbackArg := arg }

/-- A listening pcb has no field for the callback to go to. -/
def tcpErr (p : Pcb) (f : Option ErrFn) : Pcb :=
  match p.kind with
  | .connection => { p with errf := f, errCalls := p.errCalls + 1 }
  | .listen => { p with errCalls := p.errCalls + 1 }

/-- The listening pcb that takes the place of `p`. -/
def tcpListen (p : Pcb) : Pcb := ⟨.listen, true, p.callbackArg, none, 0⟩

/-- The pcb of a connection that comes in at the listening pcb `l`. -/
def tcpListenInput (l : Pcb) : Pcb := ⟨.connection, true, l.callbackArg, none, 0⟩

/-- Deallocation, after a reset, an abort or the end of a close. -/
def Pcb.free (p : Pcb) : Pcb := { p with live := false }

/-! ### What the sketches must keep -/

/-- The pcbs of a sketch, deallocated ones included, and whether the variable `connected` of
`tcptx` still exists. -/
structure World where
  pcbs : List Pcb
  connectedAlive : Bool

/-- The pointer points to an `int` that is still alive. -/
def World.PointsToInt (w : World) : Arg → Prop
  | .null => False
  | .connected => w.connectedAlive = true

/-- `tcp_err` has been applied to connection pcbs only. -/
def World.ErrOnConnections (w : World) : Prop :=
  ∀ p ∈ w.pcbs, p.errCalls ≠ 0 → p.kind = .connection

/-- Whenever an error callback is registered on a live pcb, its argument points to an `int`. -/
def World.ArgsAlive (w : World) : Prop :=
  ∀ p ∈ w.pcbs, p.live = true → p.errf ≠ none → w.PointsToInt p.callbackArg

/-- What keeps a connection error from writing through a stray pointer. -/
def World.Safe (w : World) : Prop := w.ErrOnConnections ∧ w.ArgsAlive

/-! ### Small facts -/

@[simp] theorem tcpErr_kind (p : Pcb) (f : Option ErrFn) : (tcpErr p f).kind = p.kind := by
  unfold tcpErr
  split <;> rfl

@[simp] theorem tcpErr_callbackArg (p : Pcb) (f : Option ErrFn) :
    (tcpErr p f).callbackArg = p.callbackArg := by
  unfold tcpErr
  cases p.kind <;> rfl

@[simp] theorem tcpErr_live (p : Pcb) (f : Option ErrFn) : (tcpErr p f).live = p.live := by
  unfold tcpErr
  cases p.kind <;> rfl

theorem tcpErr_errf {p : Pcb} (hk : p.kind = .connection) (f : Option ErrFn) :
    (tcpErr p f).errf = f := by
  simp [tcpErr, hk]

end Lwip
