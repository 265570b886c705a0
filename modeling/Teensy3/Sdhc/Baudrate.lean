import Mathlib.Tactic
import Teensy3.Lib.LeastSearch
import Teensy3.Lib.RegProgram
import Teensy3.Sdhc.Driver
import Teensy3.Sdhc.Initialize

/-!
# The rate of the SD clock

`SDHC_ioctl` has a request that sets the rate of the clock of the card and one that reads it back
from the dividers in `SDHC_SYSCTL`.  The first of them programs the dividers for the rate that the
driver has been initialised with, whatever rate is asked for; the call in its `#if 0` part passes
`*param32_ptr`.

* `Request`, `ioctl`: the function with all of its requests;
* `clockDevice`: the register `SDHC_SYSCTL`, in which the module changes nothing but the end of a
  reset and of the initial clocks; all other registers have any value at any time;
* `settings`, `encode`, `dividers`: the pairs that the search goes through, their place in the
  register, and what is read back;
* `Programmed`: the register has a pair, and no reset is under way; which part of the driver keeps
  this, and which changes the pair, up to `ends_ioctl`;
* `IoctlCall`, `ClockAgrees`: calls, and that what they set and what they read back agree.
-/

namespace Sdhc

open RegProgram RegProgram.Prog Machine LeastSearch

/-! ### The requests -/

/-- The request of a call of `SDHC_ioctl`.  A parameter is the word that a pointer points to; it is
`none` for `NULL`. -/
inductive Request
  | init (junk : Response)
  | sendCommand (c : Command)
  | getBaudrate (param : Option Word)
  | setBaudrate (param : Option Word)
  | getBlockSize (param : Option Word)
  | setBlockSize (param : Option Word)
  | getBusWidth (param : Option Word)
  | setBusWidth (param : Option Word)
  | getCard (param : Option Word)
  | deviceIdentify
  | flushOutput
  | other
  deriving DecidableEq, Repr

/-- What a call leaves where its pointer points to. -/
inductive Stored
  | nothing
  | word (v : Word)
  | command (c : Command)
  | identity (phy log attr : Word)
  /-- there is no value, as the function divides by zero -/
  | divisionByZero
  deriving DecidableEq, Repr

/-- What a call returns and stores, and the variables of the driver after it. -/
structure Outcome where
  result : Result
  disk : Disk
  stored : Stored := .nothing
  deriving DecidableEq, Repr

/-- `ESDHC_CARD_NONE`, … -/
def CardType.code : CardType → Word
  | none => 0
  | unknown => 1
  | sd => 2
  | sdhc => 3
  | sdio => 4
  | sdcombo => 5
  | sdhccombo => 6
  | mmc => 7
  | ceata => 8

open Sysctl in
/-- `IO_IOCTL_ESDHC_GET_BAUDRATE`, which reads the register once for each of the dividers. -/
def ioctlGetBaudrate (init : InitStruct) (g : Disk) : Driver Outcome := do
  let s ← load .ioctl .sysctl
  let val := ((s &&& sdclkfsMask) >>> 8) <<< 1
  let s ← load .ioctl .sysctl
  let val := val * (((s &&& dvsMask) >>> 4) + 1)
  return ⟨.ok, g, if val = 0 then .divisionByZero else .word (init.clockSpeed / val)⟩

/-- `IO_IOCTL_ESDHC_SET_BAUDRATE` -/
def ioctlSetBaudrate (init : InitStruct) (g : Disk) (baudrate : Word) : Driver Outcome := do
  if baudrate = 0 then return ⟨.invalidParameter, g, .nothing⟩
  let running ← isRunning
  if running then return ⟨.deviceBusy, g, .nothing⟩
  setBaudrate init.clockSpeed init.baudRate
  return ⟨.ok, g, .nothing⟩

/-- `IO_IOCTL_ESDHC_SET_BLOCK_SIZE` -/
def ioctlSetBlockSize (g : Disk) (size : Word) : Driver Outcome := do
  let running ← isRunning
  if running then return ⟨.deviceBusy, g, .nothing⟩
  if 0x0FFF < size then return ⟨.invalidParameter, g, .nothing⟩
  update .ioctl .ioctl .blkattr (· &&& ~~~0x1FFF)
  update .ioctl .ioctl .blkattr (· ||| Blkattr.blksize size)
  return ⟨.ok, g, .nothing⟩

/-- `IO_IOCTL_ESDHC_GET_BUS_WIDTH` -/
def ioctlGetBusWidth (g : Disk) : Driver Outcome := do
  let s ← load .ioctl .proctl
  let val := (s &&& Proctl.dtwMask) >>> 1
  if val = 0 then return ⟨.ok, g, .word 0⟩
  if val = 1 then return ⟨.ok, g, .word 1⟩
  if val = 0x10 then return ⟨.ok, g, .word 2⟩
  return ⟨.invalidBusWidth, g, .nothing⟩

open Irqstat in
/-- `IO_IOCTL_FLUSH_OUTPUT` -/
def ioctlFlushOutput (g : Disk) : Driver Outcome := do
  let _ ← await .ioctl .irqstat fun s => s &&& tc != 0
  let s ← load .ioctl .irqstat
  if s &&& dataErrors ≠ 0 then
    update .ioctl .ioctl .irqstat (· ||| dataErrors)
    update .ioctl .ioctl .irqstat (· ||| (tc ||| brr ||| bwr))
    return ⟨.dataTransfer, g, .nothing⟩
  update .ioctl .ioctl .irqstat (· ||| (tc ||| brr ||| bwr))
  return ⟨.ok, g, .nothing⟩

/-- `SDHC_ioctl` -/
def ioctl (init : InitStruct) (g : Disk) (request : Request) : Driver Outcome := do
  if !g.init then return ⟨.deviceInvalid, g, .nothing⟩
  match request with
  | .init junk =>
    let r ← ioctlInitWith init g junk
    return ⟨r.1, r.2, .nothing⟩
  | .sendCommand c =>
    let r ← ioctlSendCommand g c
    return ⟨r.1, g, .command r.2⟩
  | .getBaudrate none | .setBaudrate none | .getBlockSize none | .setBlockSize none
  | .getBusWidth none | .setBusWidth none | .getCard none =>
    return ⟨.invalidParameter, g, .nothing⟩
  | .getBaudrate (some _) => ioctlGetBaudrate init g
  | .setBaudrate (some b) => ioctlSetBaudrate init g b
  | .getBlockSize (some _) =>
    let s ← load .ioctl .blkattr
    return ⟨.ok, g, .word (s &&& 0x1FFF)⟩
  | .setBlockSize (some size) => ioctlSetBlockSize g size
  | .getBusWidth (some _) => ioctlGetBusWidth g
  | .setBusWidth (some width) =>
    let result ← ioctlSetBusWidth g width
    return ⟨result, g, .nothing⟩
  | .getCard (some _) =>
    let r ← ioctlGetCard g
    return ⟨r.1, r.2, .word r.2.card.code⟩
  | .deviceIdentify => return ⟨.ok, g, .identity 0x1C 0x04 0x278⟩
  | .flushOutput => ioctlFlushOutput g
  | .other => return ⟨.invalidIoctlCmd, g, .nothing⟩

/-! ### The clock register -/

/-- `SDHC_SYSCTL` in the module: an event ends a reset, after which the register has the value that
comes with the event, or it ends the initial clocks. -/
def clockDevice : Device Reg Word Word Word where
  answer r bus w := if r = .sysctl then w else bus
  onRead _ _ w := w
  onWrite r v w := if r = .sysctl then v else w
  onEvent e w := if w &&& Sysctl.rsta = 0 then w &&& ~~~Sysctl.inita else e

/-- The pairs of dividers that `SDHC_set_baudrate` goes through. -/
def settings : List (Word × Word) :=
  (List.range 8).flatMap fun i => (List.range 16).map fun j =>
    ((2 : Word) <<< i, (.ofNat 32 (j + 1) : Word))

/-- A pair in its place in the register. -/
def encode (s : Word × Word) : Word := Sysctl.sdclkfs (s.1 >>> 1) ||| Sysctl.dvs (s.2 - 1)

/-- The pair that is read back. -/
def dividers (w : Word) : Word × Word :=
  (((w &&& Sysctl.sdclkfsMask) >>> 8) <<< 1, ((w &&& Sysctl.dvsMask) >>> 4) + 1)

/-- The bits of the dividers and of a reset. -/
def clockMask : Word := Sysctl.rsta ||| Sysctl.sdclkfsMask ||| Sysctl.dvsMask

/-- No reset is under way, and the register has the pair `s`. -/
def Programmed (s : Word × Word) (w : Word) : Prop := w &&& clockMask = encode s

/-- `val` in the search of `SDHC_set_baudrate`. -/
def val (clock baudrate : Word) (s : Word × Word) : Word := s.1 * s.2 * baudrate - clock

/-- The loop, with the value that it keeps as a number. -/
theorem foldl_eq_search (f : Word × Word → Word) (ss : List (Word × Word))
    (best : Word × Word × Word) :
    (ss.foldl (fun (best : Word × Word × Word) s =>
      if 0 ≤ (f s).toInt ∧ f s < best.1 then (f s, s.1, s.2) else best) best).2 =
      (search (fun s => 0 ≤ (f s).toInt) (fun s => (f s).toNat) (best.1.toNat, best.2) ss).2 := by
  induction ss generalizing best with
  | nil => rfl
  | cons s ss ih =>
    by_cases hbetter : 0 ≤ (f s).toInt ∧ f s < best.1
    · rw [List.foldl_cons, if_pos hbetter, ih, search, search, List.foldl_cons,
        if_pos (And.imp_right BitVec.lt_def.1 hbetter)]
    · rw [List.foldl_cons, if_neg hbetter, ih, search, search, List.foldl_cons,
        if_neg fun h => hbetter (And.imp_right BitVec.lt_def.2 h)]

/-- The pair from which the search starts, if all of the values are negative, and otherwise the first
pair with the least value. -/
theorem closest_cases (clock baudrate : Word) :
    (closest clock baudrate = (0x80, 0x0F) ∧ ∀ s ∈ settings, (val clock baudrate s).toInt < 0) ∨
      FirstLeast (fun s => 0 ≤ (val clock baudrate s).toInt) (fun s => (val clock baudrate s).toNat)
        (closest clock baudrate) settings := by
  have hclosest := foldl_eq_search (val clock baudrate) settings (-1, 0x80, 0x0F)
  change closest clock baudrate = _ at hclosest
  rcases search_cases (fun s => 0 ≤ (val clock baudrate s).toInt)
    (fun s => (val clock baudrate s).toNat) ((-1 : Word).toNat, (0x80, 0x0F)) settings with
    ⟨hstart, hle⟩ | ⟨s, hfirst, -, hs⟩
  · refine .inl ⟨by rw [hclosest, hstart], fun s hs => ?_⟩
    by_contra hok
    have hall : 2 ^ 32 - 1 ≤ (val clock baudrate s).toNat := hle s hs (not_lt.1 hok)
    rw [BitVec.toInt_eq_toNat_cond] at hok
    omega
  · rw [hs] at hclosest
    rw [hclosest]
    exact .inr hfirst

/-- The search ends with one of the pairs, if only the one that it starts with. -/
theorem closest_mem (clock baudrate : Word) : closest clock baudrate ∈ settings := by
  rcases closest_cases clock baudrate with ⟨hstart, -⟩ | hfirst
  · rw [hstart]
    decide +kernel
  · exact hfirst.mem

/-- What may be checked pair by pair. -/
theorem forall_settings {P : Word × Word → Prop} [DecidablePred P]
    (h : settings.all (fun s => P s) = true) : ∀ s ∈ settings, P s :=
  fun s hs => of_decide_eq_true (List.all_eq_true.1 h s hs)

/-- The fields of the register hold every pair. -/
theorem dividers_encode : ∀ s ∈ settings, dividers (encode s) = s :=
  forall_settings (by decide +kernel)

theorem settings_mul : ∀ s ∈ settings,
    (s.1 * s.2).toNat = s.1.toNat * s.2.toNat ∧ s.1 * s.2 ≠ 0 :=
  forall_settings (by decide +kernel)

theorem dividers_and_clockMask (w : Word) : dividers (w &&& clockMask) = dividers w := by
  simp only [dividers, BitVec.and_assoc]
  rfl

/-- A pair that has been programmed is read back. -/
theorem dividers_of_programmed {s : Word × Word} (hs : s ∈ settings) {w : Word}
    (h : Programmed s w) : dividers w = s := by
  rw [← dividers_and_clockMask, h, dividers_encode s hs]

/-- No reset is under way. -/
def Idle (w : Word) : Prop := w &&& Sysctl.rsta = 0

theorem idle_of_programmed {s : Word × Word} {w : Word} (h : Programmed s w) : Idle w := by
  have hmask : w &&& Sysctl.rsta = (w &&& clockMask) &&& Sysctl.rsta := by
    rw [BitVec.and_assoc]
    rfl
  rw [Idle, hmask, h]
  refine or_and_eq_zero.2 ⟨?_, ?_⟩
  · rw [Sysctl.sdclkfs, BitVec.and_assoc]
    exact BitVec.and_zero
  · rw [Sysctl.dvs, BitVec.and_assoc]
    exact BitVec.and_zero

/-- Clearing or setting bits outside of the mask does not matter. -/
theorem programmed_and_not {s : Word × Word} {w m : Word} (hm : ~~~m &&& clockMask = clockMask)
    (h : Programmed s w) : Programmed s (w &&& ~~~m) := by
  rw [Programmed, BitVec.and_assoc, hm]
  exact h

theorem programmed_or {s : Word × Word} {w m : Word} (hm : m &&& clockMask = 0)
    (h : Programmed s w) : Programmed s (w ||| m) := by
  rw [Programmed, or_and_of_and_eq_zero hm]
  exact h

theorem idle_and_not {w : Word} (m : Word) (h : Idle w) : Idle (w &&& ~~~m) := by
  rw [Idle, BitVec.and_assoc, BitVec.and_comm (~~~m), ← BitVec.and_assoc, h]
  exact BitVec.zero_and

/-- Bits that only one part of a value has. -/
theorem or_or_and {x d e f : Word} (hx : x &&& f = 0#32) (hd : d &&& f = 0#32) :
    (x ||| (d ||| e)) &&& f = e &&& f := by
  rw [BitVec.or_comm, or_and_of_and_eq_zero hx, BitVec.or_comm, or_and_of_and_eq_zero hd]

open Sysctl in
/-- What is written to change the dividers. -/
theorem programmed_change (s : Word × Word) {w : Word} (h : Idle w) :
    Programmed s ((w &&& ~~~(dtocvMask ||| sdclkfsMask ||| dvsMask)) |||
      (dtocv 0x0E ||| sdclkfs (s.1 >>> 1) ||| dvs (s.2 - 1))) := by
  have hother : (w &&& ~~~(dtocvMask ||| sdclkfsMask ||| dvsMask)) &&& clockMask = 0#32 := by
    rw [BitVec.and_assoc]
    exact h
  have hfields : encode s &&& clockMask = encode s := by
    rw [encode, sdclkfs, dvs, BitVec.and_comm, BitVec.and_or_distrib_left, BitVec.and_comm clockMask,
      BitVec.and_comm clockMask, BitVec.and_assoc, BitVec.and_assoc]
    rfl
  rw [Programmed, BitVec.or_assoc (dtocv 0x0E), or_or_and hother (by decide)]
  exact hfields

open Sysctl in
/-- It has the pair, whatever the register was. -/
theorem dividers_change {s : Word × Word} (hs : s ∈ settings) (w : Word) :
    dividers ((w &&& ~~~(dtocvMask ||| sdclkfsMask ||| dvsMask)) |||
      (dtocv 0x0E ||| sdclkfs (s.1 >>> 1) ||| dvs (s.2 - 1))) = s := by
  have hother : ∀ {f : Word}, ~~~(dtocvMask ||| sdclkfsMask ||| dvsMask) &&& f = 0#32 →
      (w &&& ~~~(dtocvMask ||| sdclkfsMask ||| dvsMask)) &&& f = 0#32 := by
    intro f hf
    rw [BitVec.and_assoc, hf, BitVec.and_zero]
  rw [BitVec.or_assoc (dtocv 0x0E), dividers, or_or_and (hother (by decide)) (by decide),
    or_or_and (hother (by decide)) (by decide)]
  exact dividers_encode s hs

/-! ### Programs that use the register -/

/-- In every run of `x` that ends, `Q` holds at the end. -/
def Ends {α : Type} (Q : α → Word → Prop) (x : Driver α) (w : Word) : Prop :=
  Safe clockDevice (fun _ _ _ => True) (fun _ _ => True) (fun _ _ _ _ => True) Q x w

/-- An assertion on the register that the module keeps. -/
def Stable (I : Word → Prop) : Prop := ∀ w e, I w → I (clockDevice.onEvent e w)

theorem onEvent_of_idle {w : Word} (h : Idle w) (e : Word) :
    clockDevice.onEvent e w = w &&& ~~~Sysctl.inita :=
  if_pos h

theorem stable_idle : Stable Idle := by
  intro w e h
  rw [onEvent_of_idle h]
  exact idle_and_not _ h

theorem stable_programmed (s : Word × Word) : Stable (Programmed s) := by
  intro w e h
  rw [onEvent_of_idle (idle_of_programmed h)]
  exact programmed_and_not rfl h

section Rules

variable {α β : Type} {Q : α → Word → Prop} {I : Word → Prop} {p : Point} {w : Word}

theorem ends_read_sysctl (hI : Stable I) {k : Word → Driver α} (hw : I w)
    (hk : ∀ w, I w → Ends Q (k w) w) : Ends Q (.read p .sysctl k) w :=
  safe_read I hw (fun w e h _ => hI w e h) (fun _ _ => trivial) fun w _ h _ => hk w h

theorem ends_read (hI : Stable I) {r : Reg} {k : Word → Driver α} (hw : I w)
    (hk : ∀ w v, I w → Ends Q (k v) w) : Ends Q (.read p r k) w :=
  safe_read I hw (fun w e h _ => hI w e h) (fun _ _ => trivial) fun w _ h _ => hk w _ h

theorem ends_write_sysctl {v : Word} {k : Driver α} (hk : Ends Q k v) :
    Ends Q (.write p .sysctl v k) w :=
  safe_write (fun _ => True) trivial (fun _ _ _ _ => trivial) (fun _ _ => trivial)
    fun _ _ _ _ => hk

theorem onWrite_of_ne {r : Reg} (hr : r ≠ .sysctl) (v w : Word) : clockDevice.onWrite r v w = w :=
  if_neg hr

theorem ends_write (hI : Stable I) {r : Reg} (hr : r ≠ .sysctl) {v : Word} {k : Driver α} (hw : I w)
    (hk : ∀ w, I w → Ends Q k w) : Ends Q (.write p r v k) w := by
  refine safe_write I hw (fun w e h _ => hI w e h) (fun _ _ => trivial) fun w _ h _ => ?_
  rw [onWrite_of_ne hr]
  exact hk w h

theorem ends_poll (hI : Stable I) {r : Reg} {stop : Word → Bool} {k : Word → Driver α} (hw : I w)
    (hk : ∀ w v, I w → (r = .sysctl → stop w = true) → Ends Q (k v) w) :
    Ends Q (.poll p r stop k) w := by
  refine safe_poll I hw (fun w e h _ => hI w e h) (fun _ _ => trivial) (fun _ _ h _ _ => h) ?_
  intro w bus h _ hstop
  refine hk w _ h ?_
  rintro rfl
  exact hstop

/-- A program that does not write to the register. -/
theorem ends_of_avoids (hI : Stable I) {x : Driver α} (hx : x.Avoids .sysctl) (hw : I w) :
    Ends (fun _ w => I w) x w :=
  safe_of_avoids I hI (fun _ _ _ h => h) (fun r v w hr h => by rwa [onWrite_of_ne hr]) hx hw

theorem ends_bind {Q' : β → Word → Prop} {x : Driver α} {f : α → Driver β} (hx : Ends Q x w)
    (hf : ∀ a w, Q a w → Ends Q' (f a) w) : Ends Q' (x.bind f) w :=
  safe_bind (hx.mono hf)

end Rules

/-- `SDHC_set_baudrate` programs what the search selects. -/
theorem ends_setBaudrate (clock baudrate : Word) {w : Word} (hw : Idle w) :
    Ends (fun _ => Programmed (closest clock baudrate)) (setBaudrate clock baudrate) w := by
  set s := closest clock baudrate with hs
  have hstable := stable_programmed s
  simp only [setBaudrate, bind_eq, update_bind, load_bind, store_bind, await_bind, ← hs]
  refine ends_read_sysctl stable_idle hw fun w hw => ends_write_sysctl ?_
  refine ends_read_sysctl stable_idle (idle_and_not _ hw) fun w hw => ends_write_sysctl ?_
  refine ends_poll hstable (programmed_change s hw) fun w _ hw _ => ?_
  refine ends_read_sysctl hstable hw fun w hw => ends_write_sysctl ?_
  refine ends_read hstable (programmed_or rfl hw) fun w v hw => ?_
  exact ends_write hstable (by decide) hw fun w hw => hw

theorem ends_initialClocks {s : Word × Word} {w : Word} (hw : Programmed s w) :
    Ends (fun _ => Programmed s) initialClocks w := by
  have hstable := stable_programmed s
  simp only [initialClocks, bind_eq, update_bind, await_bind]
  refine ends_read_sysctl hstable hw fun w hw => ends_write_sysctl ?_
  exact ends_poll hstable (programmed_or rfl hw) fun w _ hw _ => hw

/-! ### Programs that leave the register alone -/

theorem avoids_issue (c : Command) : (issue c).Avoids .sysctl := by
  simp only [issue, orIrqstat, setBlkcnt, bind_eq, pure_eq, update_bind, await_bind, store_bind]
  refine fun _ => ⟨by decide, fun _ => ⟨by decide, fun _ => ⟨by decide, ?_⟩⟩⟩
  refine Avoids.bind ?_ fun _ => ⟨by decide, by decide, trivial⟩
  exact avoids_ite (fun _ => ⟨by decide, trivial⟩) trivial

theorem avoids_complete (c : Command) : (complete c).Avoids .sysctl := by
  have hfail : ∀ (m : Word) (r : ℤ × Command),
      ((orIrqstat .failRead .failWrite m).bind fun _ => .done r).Avoids .sysctl :=
    fun m r _ => ⟨by decide, trivial⟩
  have hresponse : (getResponse c).Avoids .sysctl := by
    simp only [getResponse, bind_eq, pure_eq, load_bind]
    exact avoids_ite trivial fun _ => avoids_ite trivial fun _ _ _ => trivial
  simp only [complete, bind_eq, pure_eq, await_bind, load_bind]
  refine fun _ => avoids_ite (hfail _ _) fun _ => avoids_ite (hfail _ _) fun _ =>
    avoids_ite (hfail _ _) (hresponse.bind fun _ => ?_)
  exact fun _ => ⟨by decide, trivial⟩

theorem avoids_sendCommand (c : Command) : (sendCommand c).Avoids .sysctl :=
  avoids_ite trivial ((avoids_issue c).bind fun _ => avoids_complete c)

/-- A step that sends a command and gives up when it fails. -/
theorem avoids_send {α : Type} (c : Command) {f : ℤ × Command → Driver α}
    (hf : ∀ r, (f r).Avoids .sysctl) : ((sendCommand c).bind f).Avoids .sysctl :=
  (avoids_sendCommand c).bind hf

theorem avoids_sendOcr (hc : Bool) (fuel val : ℕ) (c : Command) :
    (sendOcr hc fuel val c).Avoids .sysctl := by
  induction fuel generalizing val c with
  | zero => trivial
  | succ fuel ih =>
    refine avoids_send _ fun r => avoids_ite trivial (avoids_send _ fun r => ?_)
    exact avoids_ite trivial (avoids_ite (ih _ _) trivial)

theorem avoids_detectSd (hc : Bool) (c : Command) : (detectSd hc c).Avoids .sysctl := by
  refine avoids_send _ fun r => avoids_ite trivial (avoids_ite trivial ?_)
  refine (avoids_sendOcr _ _ _ _).bind fun loop => ?_
  cases loop with
  | none => trivial
  | some loop => exact avoids_ite trivial trivial

theorem avoids_detectMmc (c : Command) : (detectMmc c).Avoids .sysctl := by
  refine avoids_send _ fun r => avoids_ite trivial (avoids_send _ fun r => avoids_ite trivial ?_)
  refine avoids_ite trivial (avoids_send _ fun r => avoids_ite trivial ?_)
  exact avoids_ite trivial trivial

theorem avoids_ioctlSetBusWidth (g : Disk) (width : Word) :
    (ioctlSetBusWidth g width).Avoids .sysctl := by
  refine avoids_ite trivial fun _ => avoids_ite trivial ?_
  split
  · trivial
  · exact fun _ => ⟨by decide, fun _ => ⟨by decide, trivial⟩⟩

/-! ### The requests and the pair in the register -/

/-- `SDHC_init` programs the rate for the identification of the card. -/
theorem ends_sdhcInitWith (init : InitStruct) (w : Word) :
    Ends (fun _ => Programmed (closest init.clockSpeed 380000)) (sdhcInitWith init) w := by
  have hstable := stable_programmed (closest init.clockSpeed 380000)
  simp only [sdhcInitWith, bind_eq, pure_eq, store_bind, await_bind]
  refine ends_write_sysctl (ends_poll (I := fun _ => True) (fun _ _ _ => trivial) trivial ?_)
  intro w _ _ hstop
  have hw : Idle w := by simpa [Idle] using hstop rfl
  refine ends_write stable_idle (by decide) hw fun w hw => ?_
  refine ends_write stable_idle (by decide) hw fun w hw => ?_
  refine ends_write stable_idle (by decide) hw fun w hw => ?_
  refine ends_write stable_idle (by decide) hw fun w hw => ?_
  refine ends_bind (ends_setBaudrate _ _ hw) fun _ w hw => ?_
  refine ends_poll hstable hw fun w _ hw _ => ?_
  refine ends_write hstable (by decide) hw fun w hw => ?_
  refine ends_write hstable (by decide) hw fun w hw => ?_
  refine ends_bind (ends_initialClocks hw) fun _ w hw => ?_
  exact ends_of_avoids hstable (fun _ _ => ⟨by decide, trivial⟩) hw

/-- The register has one of the pairs. -/
def SomePair (w : Word) : Prop := ∃ s ∈ settings, Programmed s w

/-- Whatever becomes of `IO_IOCTL_ESDHC_INIT`, it programs a pair. -/
theorem ends_ioctlInitWith (init : InitStruct) {g : Disk} (hg : g.init = true) (junk : Response)
    (w : Word) : Ends (fun _ => SomePair) (ioctlInitWith init g junk) w := by
  set s := closest init.clockSpeed 380000 with hs
  have hstable := stable_programmed s
  have hpair : ∀ {w : Word}, Programmed s w → SomePair w :=
    fun hw => ⟨s, closest_mem _ _, hw⟩
  have hset : ∀ {w : Word} (r : Result × Disk), Programmed s w → Ends (fun _ => SomePair)
      ((setBaudrate init.clockSpeed init.baudRate).bind fun _ => .done r) w :=
    fun r hw => ends_bind (ends_setBaudrate _ _ (idle_of_programmed hw)) fun _ w hw =>
      ⟨_, closest_mem _ _, hw⟩
  have hsend : ∀ {w : Word} (c : Command) (f : ℤ × Command → Driver (Result × Disk)),
      Programmed s w → (∀ r w, Programmed s w → Ends (fun _ => SomePair) (f r) w) →
      Ends (fun _ => SomePair) ((sendCommand c).bind f) w :=
    fun c f hw hf => ends_bind (ends_of_avoids hstable (avoids_sendCommand c) hw) hf
  simp only [ioctlInitWith, hg, Bool.not_true, Bool.false_eq_true, if_false, bind_eq, pure_eq]
  refine ends_bind (ends_sdhcInitWith init w) fun card w hw => ?_
  refine hsend _ _ hw fun r w hw => ?_
  split
  · exact hpair hw
  refine hsend _ _ hw fun r w hw => ?_
  split
  · exact hpair hw
  refine hsend _ _ hw fun r w hw => ?_
  split
  · exact hpair hw
  split
  · refine ends_bind (ends_of_avoids hstable (avoids_detectMmc _) hw) fun kind w hw => ?_
    cases kind with
    | none => exact hpair hw
    | some kind => exact hset _ hw
  · refine ends_bind (ends_of_avoids hstable (avoids_detectSd _ _) hw) fun kind w hw => ?_
    cases kind with
    | none => exact hpair hw
    | some kind => exact hset _ hw

theorem ends_ioctlSetBaudrate (init : InitStruct) (g : Disk) (b : Word) {s : Word × Word} {w : Word}
    (hw : Programmed s w) :
    Ends (fun o => Programmed (if o.result = .ok then closest init.clockSpeed init.baudRate else s))
      (ioctlSetBaudrate init g b) w := by
  simp only [ioctlSetBaudrate, isRunning, bind_eq, pure_eq, load_bind]
  split
  · exact hw
  refine ends_read (stable_programmed s) hw fun w v hw => ?_
  rw [done_bind]
  split
  · exact hw
  · exact ends_bind (ends_setBaudrate _ _ (idle_of_programmed hw)) fun _ w hw => hw

theorem ends_ioctlGetBaudrate (init : InitStruct) (g : Disk) {s : Word × Word} (hs : s ∈ settings)
    {w : Word} (hw : Programmed s w) :
    Ends (fun o w => o.stored = .word (init.clockSpeed / (s.1 * s.2)) ∧ Programmed s w)
      (ioctlGetBaudrate init g) w := by
  have hstable := stable_programmed s
  simp only [ioctlGetBaudrate, bind_eq, pure_eq, load_bind]
  refine ends_read_sysctl hstable hw fun w₁ hw₁ => ends_read_sysctl hstable hw₁ fun w₂ hw₂ => ?_
  obtain ⟨hpres, -⟩ := Prod.mk.inj (dividers_of_programmed hs hw₁)
  obtain ⟨-, hdiv⟩ := Prod.mk.inj (dividers_of_programmed hs hw₂)
  rw [hpres, hdiv, if_neg (settings_mul s hs).2]
  exact ⟨rfl, hw₂⟩

theorem ends_ioctlGetCard (g : Disk) {s : Word × Word} {w : Word} (hw : Programmed s w) :
    Ends (fun _ => Programmed s) (ioctlGetCard g) w := by
  have hrest : ∀ {x : Driver (Result × Disk)} {w : Word}, x.Avoids .sysctl → Programmed s w →
      Ends (fun _ => Programmed s) x w :=
    fun hx hw => ends_of_avoids (stable_programmed s) hx hw
  simp only [ioctlGetCard, bind_eq, pure_eq, load_bind]
  split
  · exact hw
  refine ends_bind (ends_initialClocks hw) fun _ w hw => hrest (fun v => ?_) hw
  refine avoids_ite (fun _ => ⟨by decide, fun _ => trivial⟩) fun _ => ?_
  exact avoids_ite trivial trivial

/-- What a request stores and does to the pair `s` in the register. -/
def Effect (init : InitStruct) (s : Word × Word) (request : Request) (o : Outcome) (w : Word) : Prop :=
  match request with
  | .init _ => SomePair w
  | .setBaudrate none => o.result = .invalidParameter ∧ Programmed s w
  | .setBaudrate (some _) =>
    Programmed (if o.result = .ok then closest init.clockSpeed init.baudRate else s) w
  | .getBaudrate none => o.stored = .nothing ∧ Programmed s w
  | .getBaudrate (some _) => o.stored = .word (init.clockSpeed / (s.1 * s.2)) ∧ Programmed s w
  | _ => Programmed s w

/-- The requests that have nothing to do with the clock leave the register alone. -/
theorem ends_ioctl (init : InitStruct) {g : Disk} (hg : g.init = true) (request : Request)
    {s : Word × Word} (hs : s ∈ settings) {w : Word} (hw : Programmed s w) :
    Ends (Effect init s request) (ioctl init g request) w := by
  have hrest : ∀ {x : Driver Outcome}, x.Avoids .sysctl → Ends (fun _ => Programmed s) x w :=
    fun hx => ends_of_avoids (stable_programmed s) hx hw
  simp only [ioctl, hg, Bool.not_true, Bool.false_eq_true, if_false, bind_eq, pure_eq]
  cases request with
  | init junk => exact ends_bind (ends_ioctlInitWith init hg junk w) fun _ _ h => h
  | sendCommand c =>
    refine hrest (Avoids.bind ?_ fun _ => trivial)
    rw [ioctlSendCommand_eq hg]
    exact avoids_send _ fun _ => trivial
  | getBaudrate param =>
    cases param with
    | none => exact ⟨rfl, hw⟩
    | some v => exact ends_ioctlGetBaudrate init g hs hw
  | setBaudrate param =>
    cases param with
    | none => exact ⟨rfl, hw⟩
    | some b => exact ends_ioctlSetBaudrate init g b hw
  | getBlockSize param =>
    cases param with
    | none => exact hw
    | some v => exact hrest fun _ => trivial
  | setBlockSize param =>
    cases param with
    | none => exact hw
    | some size =>
      refine hrest fun _ => avoids_ite trivial (avoids_ite trivial ?_)
      exact fun _ => ⟨by decide, fun _ => ⟨by decide, trivial⟩⟩
  | getBusWidth param =>
    cases param with
    | none => exact hw
    | some v =>
      exact hrest fun _ => avoids_ite trivial (avoids_ite trivial (avoids_ite trivial trivial))
  | setBusWidth param =>
    cases param with
    | none => exact hw
    | some width =>
      exact hrest ((avoids_ioctlSetBusWidth g width).bind fun _ => trivial)
  | getCard param =>
    cases param with
    | none => exact hw
    | some v => exact ends_bind (ends_ioctlGetCard g hw) fun _ _ h => h
  | deviceIdentify => exact hw
  | flushOutput =>
    refine hrest fun _ _ => avoids_ite ?_ fun _ => ⟨by decide, trivial⟩
    exact fun _ => ⟨by decide, fun _ => ⟨by decide, trivial⟩⟩
  | other => exact hw

/-- No request changes whether the driver has been initialised. -/
theorem ioctl_init_eq (init : InitStruct) (g : Disk) (request : Request) :
    (ioctl init g request).Post fun o => o.disk.init = g.init := by
  have hsame : ∀ {α : Type} (x : Driver α) (f : α → Outcome), (∀ a, (f a).disk = g) →
      (x.bind fun a => .done (f a)).Post fun o => o.disk.init = g.init :=
    fun x f hf => post_bind x fun a => congrArg Disk.init (hf a)
  simp only [ioctl, bind_eq, pure_eq]
  split
  · rfl
  cases request with
  | init junk => exact (ioctlInitWith_sameStat init g junk).bind fun r h => h.2
  | sendCommand c => exact hsame _ _ fun _ => rfl
  | getBaudrate param =>
    cases param with
    | none => rfl
    | some v => exact fun _ _ => rfl
  | setBaudrate param =>
    cases param with
    | none => rfl
    | some b =>
      refine post_ite rfl (post_bind _ fun running => post_ite rfl ?_)
      exact hsame _ _ fun _ => rfl
  | getBlockSize param =>
    cases param with
    | none => rfl
    | some v => exact fun _ => rfl
  | setBlockSize param =>
    cases param with
    | none => rfl
    | some size =>
      exact post_bind _ fun running => post_ite rfl (post_ite rfl fun _ _ => rfl)
  | getBusWidth param =>
    cases param with
    | none => rfl
    | some v => exact fun _ => post_ite rfl (post_ite rfl (post_ite rfl rfl))
  | setBusWidth param =>
    cases param with
    | none => rfl
    | some width => exact hsame _ _ fun _ => rfl
  | getCard param =>
    cases param with
    | none => rfl
    | some v => exact (ioctlGetCard_sameStat g).bind fun r h => h.2
  | deviceIdentify => rfl
  | flushOutput => exact fun _ _ => post_ite (fun _ _ => rfl) fun _ => rfl
  | other => rfl

/-! ### Sequences of calls -/

/-- A call: its request, and what happens while it runs. -/
structure IoctlCall where
  request : Request
  schedule : List (Step Word Word)

/-- What a call does to the variables of the driver and to the register; there is nothing when it
does not return. -/
def IoctlCall.run (init : InitStruct) (c : IoctlCall) (s : Disk × Word) : Option (Outcome × Word) :=
  let r := Machine.run (step clockDevice) (ioctl init s.1 c.request, s.2) c.schedule
  r.1.result.map fun o => (o, r.2)

/-- The rate that is set after a call, when `want` was before it: the one that the last successful
`IO_IOCTL_ESDHC_SET_BAUDRATE` since the last `IO_IOCTL_ESDHC_INIT` has asked for. -/
def Request.wanted (want : Option Word) (request : Request) (result : Result) : Option Word :=
  match request with
  | .init _ => none
  | .setBaudrate (some b) => if result = .ok then some b else want
  | _ => want

/-- What a call has to do, when the register is `w` before it and `w'` after it: a rate that is set
is the one that was asked for; a call that fails to set one leaves the dividers alone; and the rate
that is read back is the one of the pair for the rate that was set, with a division that is
defined. -/
structure CallAgrees (init : InitStruct) (want : Option Word) (request : Request) (o : Outcome)
    (w w' : Word) : Prop where
  set : ∀ b, request = .setBaudrate (some b) → o.result = .ok →
    dividers w' = closest init.clockSpeed b
  failed : ∀ param, request = .setBaudrate param → o.result ≠ .ok → dividers w' = dividers w
  defined : ∀ param, request = .getBaudrate param → o.stored ≠ .divisionByZero
  get : ∀ v b, request = .getBaudrate (some v) → want = some b → ∃ rate, o.stored = .word rate ∧
    rate = init.clockSpeed / ((closest init.clockSpeed b).1 * (closest init.clockSpeed b).2) ∧
    (init.clockSpeed.toNat ≤
        (closest init.clockSpeed b).1.toNat * (closest init.clockSpeed b).2.toNat * b.toNat →
      rate ≤ b)

/-- All calls do what they have to do; a call that does not return is the last one. -/
def ClockAgrees (init : InitStruct) : Option Word → Disk × Word → List IoctlCall → Prop
  | _, _, [] => True
  | want, s, c :: calls => ∀ o w, c.run init s = some (o, w) →
      CallAgrees init want c.request o s.2 w ∧
        ClockAgrees init (c.request.wanted want o.result) (o.disk, w) calls

open Prsstat in
/-- The bits of `SDHC_PRSSTAT` that say that the module is in use. -/
def busy : Word := rta ||| wta ||| dla ||| cdihb ||| cihb

/-- A call that asks for another rate than the one for which the pair is programmed, although it
finds the module idle, so that it sets the rate. -/
def IoctlCall.AsksForOther (init : InitStruct) (c : IoctlCall) : Prop :=
  ∃ b, c.request = .setBaudrate (some b) ∧ b ≠ 0 ∧
    (∃ bus, firstBus c.schedule = some bus ∧ bus &&& busy = 0) ∧
    closest init.clockSpeed b ≠ closest init.clockSpeed init.baudRate

theorem ioctl_of_not_init (init : InitStruct) {g : Disk} (hg : g.init = false) (request : Request) :
    ioctl init g request = .done ⟨.deviceInvalid, g, .nothing⟩ := by
  simp only [ioctl, hg, Bool.not_false, if_true]
  rfl

/-- What is true of a call that sets the rate. -/
theorem set_of_ok (init : InitStruct) {g : Disk} (hg : g.init = true) {b w w' : Word}
    {es : List (Step Word Word)} {o : Outcome}
    (hrun : run (step clockDevice) (ioctl init g (.setBaudrate (some b)), w) es = (.done o, w'))
    (hok : o.result = .ok) : b ≠ 0 ∧ ∃ bus, firstBus es = some bus ∧ bus &&& busy = 0 := by
  have hioctl : ioctl init g (.setBaudrate (some b)) = ioctlSetBaudrate init g b := by
    simp [ioctl, hg]
  rw [hioctl] at hrun
  by_cases hb : b = 0
  · rw [ioctlSetBaudrate, if_pos hb, pure_eq, run_done] at hrun
    obtain ⟨ho, -⟩ := Prod.mk.inj hrun
    cases ho
    cases hok
  rw [ioctlSetBaudrate, if_neg hb] at hrun
  obtain ⟨bus, w₁, es', hbus, hrun⟩ := run_read hrun
  refine ⟨hb, bus, hbus, ?_⟩
  by_contra hbusy
  have hrunning : (bus &&& busy != 0) = true := by simpa using hbusy
  change run (step clockDevice) ((if (bus &&& busy != 0) = true then _ else _), _) es' = _ at hrun
  rw [if_pos hrunning, pure_eq, run_done] at hrun
  obtain ⟨ho, -⟩ := Prod.mk.inj hrun
  cases ho
  cases hok

/-- The state between two calls: unless the driver has not been initialised, the register has a
pair, and it is the one for the rate that is set. -/
def ClockInv (init : InitStruct) (want : Option Word) (s : Disk × Word) : Prop :=
  s.1.init = false ∧ want = none ∨
    s.1.init = true ∧ ∃ pair ∈ settings, Programmed pair s.2 ∧
      ∀ b, want = some b → closest init.clockSpeed b = pair

/-- A call that is made on a driver that has not been initialised. -/
theorem callAgrees_of_not_init {init : InitStruct} {g : Disk} (hg : g.init = false) {w : Word}
    {c : IoctlCall} {o : Outcome} {w' : Word} (hrun : c.run init (g, w) = some (o, w')) :
    CallAgrees init none c.request o w w' ∧
      ClockInv init (c.request.wanted none o.result) (o.disk, w') := by
  rw [IoctlCall.run, ioctl_of_not_init init hg, run_done] at hrun
  obtain ⟨rfl, rfl⟩ := Prod.mk.inj (Option.some.inj hrun)
  refine ⟨⟨?_, ?_, ?_, ?_⟩, .inl ⟨hg, ?_⟩⟩
  · intro b _ hok
    cases hok
  · exact fun _ _ _ => rfl
  · intro param _ hdiv
    cases hdiv
  · intro v b _ hwant
    cases hwant
  · unfold Request.wanted
    split <;> rfl

/-- The rate of a pair is not above a rate for which the pair is slow enough. -/
theorem rate_le {clock b : Word} {pair : Word × Word} (hpair : pair ∈ settings)
    (h : clock.toNat ≤ pair.1.toNat * pair.2.toNat * b.toNat) : clock / (pair.1 * pair.2) ≤ b := by
  rw [BitVec.le_def, BitVec.toNat_udiv, (settings_mul pair hpair).1]
  exact Nat.div_le_of_le_mul h

theorem programmed_of_ok {init : InitStruct} {pair : Word × Word} {b w : Word} {o : Outcome}
    (h : Effect init pair (.setBaudrate (some b)) o w) (hok : o.result = .ok) :
    Programmed (closest init.clockSpeed init.baudRate) w := by
  have hprog : Programmed (if o.result = .ok then closest init.clockSpeed init.baudRate else pair) w :=
    h
  rwa [if_pos hok] at hprog

theorem programmed_of_failed {init : InitStruct} {pair : Word × Word} {b w : Word} {o : Outcome}
    (h : Effect init pair (.setBaudrate (some b)) o w) (hfail : o.result ≠ .ok) :
    Programmed pair w := by
  have hprog : Programmed (if o.result = .ok then closest init.clockSpeed init.baudRate else pair) w :=
    h
  rwa [if_neg hfail] at hprog

/-- What a request does to the pair, and what it stores, is what it has to do, if it does not ask
for another rate. -/
theorem callAgrees_of_effect {init : InitStruct} {want : Option Word} {request : Request}
    {o : Outcome} {w w' : Word} {pair : Word × Word} (hpair : pair ∈ settings)
    (hw : Programmed pair w) (hwant : ∀ b, want = some b → closest init.clockSpeed b = pair)
    (heffect : Effect init pair request o w')
    (hset : ∀ b, request = .setBaudrate (some b) → o.result = .ok →
      closest init.clockSpeed b = closest init.clockSpeed init.baudRate) :
    CallAgrees init want request o w w' := by
  constructor
  · rintro b rfl hok
    rw [hset b rfl hok]
    exact dividers_of_programmed (closest_mem _ _) (programmed_of_ok heffect hok)
  · rintro param rfl hfail
    have hprog : Programmed pair w' := by
      cases param with
      | none => exact heffect.2
      | some b => exact programmed_of_failed heffect hfail
    rw [dividers_of_programmed hpair hprog, dividers_of_programmed hpair hw]
  · rintro param rfl hdiv
    cases param with
    | none => exact absurd (heffect.1.symm.trans hdiv) (by simp)
    | some v => exact absurd (heffect.1.symm.trans hdiv) (by simp)
  · rintro v b rfl hb
    rw [hwant b hb]
    exact ⟨_, heffect.1, rfl, rate_le hpair⟩

/-- The register has a pair again after a request, the one for the rate that is then set. -/
theorem pair_of_effect {init : InitStruct} {want : Option Word} {request : Request} {o : Outcome}
    {w' : Word} {pair : Word × Word} (hpair : pair ∈ settings)
    (hwant : ∀ b, want = some b → closest init.clockSpeed b = pair)
    (heffect : Effect init pair request o w')
    (hset : ∀ b, request = .setBaudrate (some b) → o.result = .ok →
      closest init.clockSpeed b = closest init.clockSpeed init.baudRate) :
    ∃ pair' ∈ settings, Programmed pair' w' ∧
      ∀ b, request.wanted want o.result = some b → closest init.clockSpeed b = pair' := by
  cases request with
  | init junk =>
    obtain ⟨pair', hmem, hprog⟩ := heffect
    refine ⟨pair', hmem, hprog, fun b hb => ?_⟩
    cases hb
  | setBaudrate param =>
    cases param with
    | none => exact ⟨pair, hpair, heffect.2, hwant⟩
    | some b' =>
      by_cases hok : o.result = .ok
      · refine ⟨_, closest_mem _ _, programmed_of_ok heffect hok, fun b hb => ?_⟩
        rw [Request.wanted, if_pos hok] at hb
        obtain rfl := Option.some.inj hb
        exact hset b' rfl hok
      · refine ⟨pair, hpair, programmed_of_failed heffect hok, fun b hb => ?_⟩
        rw [Request.wanted, if_neg hok] at hb
        exact hwant b hb
  | getBaudrate param =>
    cases param with
    | none => exact ⟨pair, hpair, heffect.2, hwant⟩
    | some v => exact ⟨pair, hpair, heffect.2, hwant⟩
  | _ => exact ⟨pair, hpair, heffect, hwant⟩

/-- What has happened when a call returns on a driver that has been initialised. -/
theorem run_of_init {init : InitStruct} {g : Disk} (hg : g.init = true) {w : Word} {c : IoctlCall}
    {o : Outcome} {w' : Word} (hrun : c.run init (g, w) = some (o, w')) :
    Machine.run (step clockDevice) (ioctl init g c.request, w) c.schedule = (.done o, w') ∧
      o.disk.init = true := by
  obtain ⟨o', hresult, ho⟩ := Option.map_eq_some_iff.1 hrun
  obtain ⟨rfl, hw'⟩ := Prod.mk.inj ho
  rw [result_eq_some] at hresult
  refine ⟨Prod.ext hresult hw', ?_⟩
  rw [(ioctl_init_eq init g c.request).eval (eval_answers _ _ _ hresult), hg]

/-- **A call** keeps the invariant and does what it has to do, unless it asks for another rate. -/
theorem callAgrees_of_inv {init : InitStruct} {want : Option Word} {g : Disk} {w : Word}
    (hinv : ClockInv init want (g, w)) {c : IoctlCall} (hc : ¬ c.AsksForOther init) {o : Outcome}
    {w' : Word} (hrun : c.run init (g, w) = some (o, w')) :
    CallAgrees init want c.request o w w' ∧
      ClockInv init (c.request.wanted want o.result) (o.disk, w') := by
  rcases hinv with ⟨hg, rfl⟩ | ⟨hg, pair, hpair, hw, hwant⟩
  · exact callAgrees_of_not_init hg hrun
  obtain ⟨hdone, hdisk⟩ := run_of_init hg hrun
  have heffect := safe_run (ends_ioctl init hg c.request hpair hw) hdone
  have hset : ∀ b, c.request = .setBaudrate (some b) → o.result = .ok →
      closest init.clockSpeed b = closest init.clockSpeed init.baudRate := by
    intro b hb hok
    rw [hb] at hdone
    obtain ⟨hzero, hidle⟩ := set_of_ok init hg hdone hok
    by_contra hne
    exact hc ⟨b, hb, hzero, hidle, hne⟩
  exact ⟨callAgrees_of_effect hpair hw hwant heffect hset,
    .inr ⟨hdisk, pair_of_effect hpair hwant heffect hset⟩⟩

theorem clockAgrees_of_inv {init : InitStruct} {want : Option Word} {s : Disk × Word}
    (hinv : ClockInv init want s) {calls : List IoctlCall}
    (hcalls : ∀ c ∈ calls, ¬ c.AsksForOther init) : ClockAgrees init want s calls := by
  induction calls generalizing want s with
  | nil => trivial
  | cons c calls ih =>
    intro o w hrun
    obtain ⟨hagrees, hinv'⟩ := callAgrees_of_inv hinv (hcalls c List.mem_cons_self) hrun
    exact ⟨hagrees, ih hinv' fun c hc => hcalls c (List.mem_cons_of_mem _ hc)⟩

/-- `IO_IOCTL_ESDHC_INIT` establishes the invariant, whatever the register was. -/
theorem clockInv_of_init {init : InitStruct} {g : Disk} {w : Word} {junk : Response}
    {schedule : List (Step Word Word)} {o : Outcome} {w' : Word}
    (hrun : IoctlCall.run init ⟨.init junk, schedule⟩ (g, w) = some (o, w')) :
    ClockInv init none (o.disk, w') := by
  cases hg : g.init with
  | false => exact (callAgrees_of_not_init hg hrun).2
  | true =>
    obtain ⟨hdone, hdisk⟩ := run_of_init hg hrun
    have hends : Ends (fun _ => SomePair) (ioctl init g (.init junk)) w := by
      simp only [ioctl, hg, Bool.not_true, Bool.false_eq_true, if_false, bind_eq, pure_eq]
      exact ends_bind (ends_ioctlInitWith init hg junk w) fun _ _ h => h
    obtain ⟨pair, hpair, hprog⟩ := safe_run hends hdone
    refine .inr ⟨hdisk, pair, hpair, hprog, fun b hb => ?_⟩
    cases hb

/-! ### Calls on a card of high capacity -/

/-- Accesses in turn with the given values on the bus, each after an event that ends what the module
is doing. -/
def accesses (bus : List Word) : List (Step Word Word) :=
  bus.flatMap fun v => [.event 0x8008, .cpu v]

/-- The values on the bus while the rate is set, … -/
def rateBus : List Word := [0, 0, 0, 0, Prsstat.sdstb, 0, 0, 0, 0]

/-- … and for a command that the card accepts. -/
def commandBus (responses : List Word) : List Word :=
  List.replicate 8 0 ++ [Irqstat.cc, Irqstat.cc, Irqstat.cc] ++ responses ++ [Irqstat.cc, 0]

/-- `IO_IOCTL_ESDHC_INIT` identifies the card. -/
def initCall : IoctlCall where
  request := .init default
  schedule := accesses (List.replicate 6 0 ++ rateBus ++ List.replicate 6 0 ++ [Prsstat.cins, 0, 0] ++
    commandBus [] ++ commandBus [0x1AA] ++ commandBus [0] ++ commandBus [0x00300000] ++
    commandBus [0] ++ commandBus [0xC0300000] ++ rateBus)

def setCall (b : Word) : IoctlCall := ⟨.setBaudrate (some b), accesses (0 :: rateBus)⟩

def getCall : IoctlCall := ⟨.getBaudrate (some 0), accesses [0, 0]⟩

/-- What calls return and store, up to the first one that does not return. -/
def results (init : InitStruct) : Disk × Word → List IoctlCall → List (Result × Stored)
  | _, [] => []
  | s, c :: calls =>
    match c.run init s with
    | none => []
    | some (o, w) => (o.result, o.stored) :: results init (o.disk, w) calls

/-- **Setting and reading back.** After `IO_IOCTL_ESDHC_INIT`, what calls set and what they read back
agree in every sequence of calls that asks only for rates with the same pair as the rate that the
driver has been initialised with, for every clock and every such rate. -/
theorem set_get_baudrate_agree (init : InitStruct) (g : Disk) (w : Word) (junk : Response)
    (schedule : List (Step Word Word)) (calls : List IoctlCall)
    (hcalls : ∀ c ∈ calls, ¬ c.AsksForOther init) :
    ClockAgrees init none (g, w) (⟨.init junk, schedule⟩ :: calls) := by
  intro o w' hrun
  refine ⟨⟨?_, ?_, ?_, ?_⟩, clockAgrees_of_inv (clockInv_of_init hrun) hcalls⟩
  · rintro b ⟨⟩
  · rintro param ⟨⟩
  · rintro param ⟨⟩
  · rintro v b ⟨⟩

/-- A rate of 30 MHz is set and read back. -/
theorem set_get_baudrate_agree_thirty :
    results k60Sdhc0Init (Disk.start.cleared, 0) [initCall, setCall 30000000, getCall] =
        [(.ok, .nothing), (.ok, .nothing), (.ok, .word 30000000)] ∧
      ClockAgrees k60Sdhc0Init none (Disk.start.cleared, 0)
        [initCall, setCall 30000000, getCall] := by
  refine ⟨by decide +kernel, set_get_baudrate_agree k60Sdhc0Init _ _ _ _ _ ?_⟩
  have hclosest : closest clockSpeed 30000000 = closest clockSpeed baudRate := by
    decide +kernel
  rintro c hc ⟨b, hb, -, -, hne⟩
  rcases List.mem_pair.1 hc with rfl | rfl
  · obtain rfl : (30000000 : Word) = b := by simpa [setCall] using hb
    exact hne hclosest
  · cases hb

/-- A rate of 400 kHz is asked for, and one of 30 MHz is set. -/
theorem set_baudrate_ignores_rate :
    ¬ ClockAgrees k60Sdhc0Init none (Disk.start.cleared, 0) [initCall, setCall 400000] := by
  intro hagrees
  have hinit : (initCall.run k60Sdhc0Init (Disk.start.cleared, 0)) =
      some (⟨.ok, { Disk.start.cleared with card := .sdhc }, .nothing⟩, 0xE0118) := by
    decide +kernel
  have hset : (setCall 400000).run k60Sdhc0Init ({ Disk.start.cleared with card := .sdhc }, 0xE0118) =
      some (⟨.ok, { Disk.start.cleared with card := .sdhc }, .nothing⟩, 0xE0118) := by
    decide +kernel
  have hdividers := (((hagrees _ _ hinit).2 _ _ hset).1).set 400000 rfl rfl
  exact absurd hdividers (by decide +kernel)

end Sdhc
