import Mathlib.Tactic
import Teensy3.Lib.RegProgram
import Teensy3.Sdhc.Driver

/-!
# Reads of several sectors

The controller receives the words of a data command into a queue of 128, and stops the card when that
is full.  `SDHC_PRSSTAT` says with `DLA` that the command has words that have not been received, and
with `BREN` that there is a word to be read; `TC` is raised when all words of the command have been
read.  `rcvr_datablock` waits for `DLA` to be clear before it reads the first word of a block.  If
there is a second block, its words are not received before the first ones have been read, so that
the wait ends with its limit.

* `Medium`, `Controller`, `controller`: a card, and the controller without errors;
* `Agrees`: a call reads what the calls for the single sectors read, and is never stuck;
* `Streaming`, `Drained`: the state of the transfer while nothing has been read, and when all has;
* `safe_sendCommand`, `safe_rcvrBlocks_one`: the call for one sector, and `agrees_one_of_inTime`;
* `safe_diskRead_many`: no call for more succeeds.
-/

namespace Sdhc

open RegProgram RegProgram.Prog Machine

/-! ### The card and the controller -/

/-- What is on the card, and whether it is addressed by blocks or by bytes. -/
structure Medium where
  block : ℕ → Fin 128 → Word
  highCapacity : Bool

/-- The block at an address. -/
def Medium.number (m : Medium) (address : Word) : ℕ :=
  if m.highCapacity then address.toNat else address.toNat / 512

/-- The words of `n` blocks from an address on. -/
def Medium.words (m : Medium) (address : Word) (n : ℕ) : List Word :=
  (List.range n).flatMap fun i => List.ofFn (m.block (m.number address + i))

/-- The controller: the registers that matter, whether the response to a command is outstanding, the
words of the data command that have not been received, those that have not been read, and whether
`TC` is outstanding. -/
structure Controller where
  irqstat : Word
  blkattr : Word
  cmdarg : Word
  pending : Bool
  coming : List Word
  fifo : List Word
  active : Bool
  deriving DecidableEq, Repr

/-- The number of blocks of a data command. -/
def Controller.blocks (w : Controller) (xfertyp : Word) : ℕ :=
  if xfertyp &&& Xfertyp.msbsel = 0 then 1 else (w.blkattr >>> 16).toNat

/-- A command is issued; `CMD12` ends the data command. -/
def Controller.issue (m : Medium) (w : Controller) (xfertyp : Word) : Controller :=
  if xfertyp &&& Xfertyp.dpsel ≠ 0 then
    { w with
      pending := true
      coming := m.words w.cmdarg (w.blocks xfertyp)
      fifo := []
      active := true }
  else if (xfertyp >>> 24) &&& 0x3F = 12 then
    { w with pending := true, coming := [], fifo := [], active := false }
  else { w with pending := true }

/-- The fields `CIHB`, `DLA` and `BREN`. -/
def Prsstat.of (cihb dla bren : Bool) : Word :=
  (if cihb then Prsstat.cihb else 0) ||| (if dla then Prsstat.dla else 0) |||
    if bren then Prsstat.bren else 0

/-- `SDHC_PRSSTAT` -/
def Controller.prsstat (w : Controller) : Word :=
  Prsstat.of w.pending (!w.coming.isEmpty) (!w.fifo.isEmpty)

/-- The response comes, a word is received, or the data command is complete. -/
inductive Event
  | respond
  | receive
  | finish
  deriving DecidableEq, Repr

/-- `SDHC_IRQSTAT` gets `CC` with the response. -/
def Controller.respond (w : Controller) : Controller :=
  if w.pending then { w with pending := false, irqstat := w.irqstat ||| Irqstat.cc } else w

/-- A word is received, if there is room for it. -/
def Controller.receive (w : Controller) : Controller :=
  match w.coming with
  | [] => w
  | word :: coming =>
    if w.fifo.length < 128 then { w with coming, fifo := w.fifo ++ [word] } else w

/-- `SDHC_IRQSTAT` gets `TC`, once, when the last word has been read. -/
def Controller.finish (w : Controller) : Controller :=
  if w.active ∧ w.coming = [] ∧ w.fifo = [] then
    { w with active := false, irqstat := w.irqstat ||| Irqstat.tc }
  else w

/-- The controller with a card. -/
def controller (m : Medium) : Device Reg Word Event Controller where
  answer r bus w :=
    match r with
    | .irqstat => w.irqstat
    | .prsstat => w.prsstat
    | .blkattr => w.blkattr
    | .datport => w.fifo.headD bus
    | _ => bus
  onRead r _ w :=
    match r with
    | .datport => { w with fifo := w.fifo.tail }
    | _ => w
  onWrite r v w :=
    match r with
    | .irqstat => { w with irqstat := clear w.irqstat v }
    | .blkattr => { w with blkattr := v }
    | .cmdarg => { w with cmdarg := v }
    | .xfertyp => w.issue m v
    | _ => w
  onEvent e w :=
    match e with
    | .respond => w.respond
    | .receive => w.receive
    | .finish => w.finish

section Registers

variable (m : Medium) (w : Controller) (v bus : Word)

@[simp] theorem answer_irqstat : (controller m).answer .irqstat bus w = w.irqstat := rfl

@[simp] theorem answer_prsstat : (controller m).answer .prsstat bus w = w.prsstat := rfl

@[simp] theorem answer_datport : (controller m).answer .datport bus w = w.fifo.headD bus := rfl

@[simp] theorem onRead_irqstat : (controller m).onRead .irqstat v w = w := rfl

@[simp] theorem onRead_prsstat : (controller m).onRead .prsstat v w = w := rfl

@[simp] theorem onWrite_irqstat :
    (controller m).onWrite .irqstat v w = { w with irqstat := clear w.irqstat v } := rfl

end Registers

/-- No command is going on. -/
def Controller.Idle (w : Controller) : Prop :=
  w.pending = false ∧ w.coming = [] ∧ w.fifo = [] ∧ w.active = false

/-! ### What is asked of a call -/

/-- The call `disk_read(0, buff, sector, count)` in an endless run. -/
def blocksRun (m : Medium) (g : Disk) (w : Controller) (sector : Word) (count : BitVec 8)
    (inp : ℕ → Step Word Event) : ℕ → Driver (DResult × List Word) × Controller :=
  trace (step (controller m)) (diskRead g 0 true sector count, w) inp

/-- Some words of the data command have not been read. -/
def Controller.Unread (w : Controller) : Prop := w.coming ≠ [] ∨ w.fifo ≠ []

/-- The driver waits for `TC`, or gives up a wait for `DLA` or `BREN`, while words are unread. -/
def Stuck (c : Driver (DResult × List Word) × Controller) (e : Step Word Event) : Prop :=
  c.2.Unread ∧ (c.1.point = some (.rcvr .complete) ∨
    ∃ bus, e = .cpu bus ∧ (c.1.point = some (.rcvr (.dla 0)) ∧ c.2.prsstat &&& Prsstat.dla ≠ 0 ∨
      ∃ j, c.1.point = some (.rcvr (.bren j 0)) ∧ c.2.prsstat &&& Prsstat.bren = 0))

/-- Driver and controller keep going. -/
structure Fair (inp : ℕ → Step Word Event) : Prop where
  cpu : ∀ n, ∃ m, n ≤ m ∧ ∃ bus, inp m = .cpu bus
  event : ∀ e n, ∃ m, n ≤ m ∧ inp m = .event e

/-- The call returns `RES_OK` with the words that the calls for the single sectors read, and is never
stuck. -/
structure Agrees (m : Medium) (g : Disk) (w : Controller) (sector : Word) (count : BitVec 8)
    (inp : ℕ → Step Word Event) : Prop where
  ok : ∃ n words, (blocksRun m g w sector count inp n).1 = .done (.ok, words) ∧
    ∀ i < count.toNat, ∀ w' inp' n' words', w'.Idle → Fair inp' →
      (blocksRun m g w' (sector + .ofNat 32 i) 1 inp' n').1 = .done (.ok, words') →
      (words.drop (128 * i)).take 128 = words'
  progress : ∀ n, ¬ Stuck (blocksRun m g w sector count inp n) (inp n)

/-- When the driver looks at `DLA` for the last time, all words have been received. -/
def InTime (p : Point) (w : Controller) : Step Word Event → Prop
  | .cpu _ => p = .rcvr (.dla 0) → w.coming = []
  | .event _ => True

/-! ### The command -/

theorem xfertyp_one (address : Word) : (readCommand 17 address 1).xfertyp = 0x113A0012#32 := by
  change (readCommand 17 0 1).xfertyp = _
  decide

theorem typed_many (address : Word) (count : BitVec 8) :
    (readCommand 18 address count).typed = 0x121A0000#32 := by
  change (readCommand 18 0 0).typed = _
  decide

theorem xfertyp_many (address : Word) {count : BitVec 8} (h : 1 < count) :
    (readCommand 18 address count).xfertyp = 0x123A0032#32 := by
  have h0 : (readCommand 18 address count).blocks ≠ 0 := by
    simp only [readCommand]
    bv_omega
  have h1 : 1 < (readCommand 18 address count).blocks := by
    simp only [readCommand]
    bv_omega
  have hmax : (readCommand 18 address count).blocks ≠ -1 := by
    simp only [readCommand]
    bv_omega
  have hread : (readCommand 18 address count).read = true := rfl
  simp only [Command.xfertyp, typed_many]
  rw [if_neg h0, if_pos h1, if_pos hmax, if_pos hread]
  decide

/-- The number of blocks is what is stored in `SDHC_BLKATTR`. -/
theorem blkcnt_shift (b : Word) (count : BitVec 8) :
    ((b &&& ~~~Blkattr.blkcntMask) ||| Blkattr.blkcnt (count.setWidth 32)) >>> 16 =
      count.setWidth 32 := by
  have hlow : (b &&& ~~~Blkattr.blkcntMask) >>> 16 = 0#32 := by
    apply BitVec.eq_of_toNat_eq
    simp only [Blkattr.blkcntMask, BitVec.toNat_ushiftRight, BitVec.toNat_and,
      Nat.shiftRight_eq_div_pow]
    have hle := Nat.and_le_right (n := b.toNat) (m := 65535)
    change (b.toNat &&& 65535) / 65536 = 0
    omega
  have hhigh : Blkattr.blkcnt (count.setWidth 32) >>> 16 = count.setWidth 32 := by
    revert count
    decide
  rw [BitVec.ushiftRight_or_distrib, hlow, hhigh, BitVec.zero_or]

/-! ### The states of the transfer -/

/-- Nothing has been read, and at most 128 words have been received. -/
def Transfer (words : List Word) (w : Controller) : Prop :=
  w.fifo ++ w.coming = words ∧ w.fifo.length ≤ 128 ∧ w.active = true

/-- The response to the command is outstanding, or `CC` has been raised. -/
def Responding (w : Controller) : Prop :=
  w.pending = true ∧ w.irqstat = 0 ∨ w.pending = false ∧ w.irqstat = Irqstat.cc

/-- The command has been answered and nothing has been read. -/
def Streaming (irqstat : Word) (words : List Word) (w : Controller) : Prop :=
  Transfer words w ∧ w.pending = false ∧ w.irqstat = irqstat

/-- All words have been received, and `words` have not been read. -/
def Received (words : List Word) (w : Controller) : Prop :=
  w.coming = [] ∧ w.fifo = words ∧ w.active = true ∧ w.pending = false ∧ w.irqstat = 0

/-- All words have been read. -/
def Drained (w : Controller) : Prop :=
  w.coming = [] ∧ w.fifo = [] ∧ w.pending = false ∧
    (w.active = true ∧ w.irqstat = 0 ∨ w.active = false ∧ w.irqstat = Irqstat.tc)

@[simp] theorem Controller.receive_pending (w : Controller) : w.receive.pending = w.pending := by
  unfold receive
  split
  · rfl
  · split <;> rfl

@[simp] theorem Controller.receive_irqstat (w : Controller) : w.receive.irqstat = w.irqstat := by
  unfold receive
  split
  · rfl
  · split <;> rfl

theorem Controller.respond_of_not_pending {w : Controller} (h : w.pending = false) :
    w.respond = w := by
  simp [respond, h]

theorem Controller.respond_pending (w : Controller) : w.respond.pending = false := by
  unfold respond
  split
  · rfl
  · next h => simpa using h

theorem Controller.finish_active {w : Controller} (hcoming : w.coming = []) (hfifo : w.fifo = []) :
    w.finish.active = false := by
  unfold finish
  split
  · rfl
  · next h => simpa [hcoming, hfifo] using h

section Events

variable {m : Medium} {w : Controller} {words : List Word}

theorem Controller.Idle.event (h : w.Idle) (e : Event) : (controller m).onEvent e w = w := by
  obtain ⟨hpending, hcoming, -, hactive⟩ := h
  cases e with
  | respond => simp [controller, Controller.respond, hpending]
  | receive => simp [controller, Controller.receive, hcoming]
  | finish => simp [controller, Controller.finish, hactive]

/-- A transfer from which nothing has been read is not complete. -/
theorem Transfer.finish_eq (h : Transfer words w) (hne : words ≠ []) : w.finish = w := by
  unfold Controller.finish
  split
  · next hdone =>
    obtain ⟨-, hcoming, hfifo⟩ := hdone
    exact absurd (by rw [← h.1, hcoming, hfifo, List.append_nil]) hne
  · rfl

theorem Transfer.event (h : Transfer words w) (hne : words ≠ []) (e : Event) :
    Transfer words ((controller m).onEvent e w) := by
  obtain ⟨hwords, hlen, hactive⟩ := h
  cases e with
  | respond =>
    simp only [controller, Controller.respond]
    split <;> exact ⟨hwords, hlen, hactive⟩
  | receive =>
    simp only [controller, Controller.receive]
    split
    · exact ⟨hwords, hlen, hactive⟩
    next word coming hcoming =>
    split
    · next hroom =>
      refine ⟨?_, ?_, hactive⟩
      · rw [← hwords, hcoming, List.append_assoc, List.singleton_append]
      · rw [List.length_append, List.length_singleton]
        exact hroom
    · exact ⟨hwords, hlen, hactive⟩
  | finish =>
    simp only [controller]
    rw [Transfer.finish_eq ⟨hwords, hlen, hactive⟩ hne]
    exact ⟨hwords, hlen, hactive⟩

theorem Streaming.event {s : Word} (h : Streaming s words w) (hne : words ≠ []) (e : Event) :
    Streaming s words ((controller m).onEvent e w) := by
  obtain ⟨ht, hpending, hirq⟩ := h
  refine ⟨ht.event hne e, ?_⟩
  cases e with
  | respond =>
    simp only [controller]
    rw [Controller.respond_of_not_pending hpending]
    exact ⟨hpending, hirq⟩
  | receive => exact ⟨(Controller.receive_pending w).trans hpending, (Controller.receive_irqstat w).trans hirq⟩
  | finish =>
    simp only [controller]
    rw [ht.finish_eq hne]
    exact ⟨hpending, hirq⟩

theorem Responding.event (h : Responding w) (ht : Transfer words w) (hne : words ≠ []) (e : Event) :
    Responding ((controller m).onEvent e w) := by
  cases e with
  | respond =>
    rcases h with ⟨hpending, hirq⟩ | ⟨hpending, hirq⟩
    · refine .inr ?_
      simp [controller, Controller.respond, hpending, hirq]
    · simp only [controller]
      rw [Controller.respond_of_not_pending hpending]
      exact .inr ⟨hpending, hirq⟩
  | receive =>
    simpa only [Responding, controller, Controller.receive_pending, Controller.receive_irqstat] using h
  | finish =>
    simp only [controller]
    rwa [ht.finish_eq hne]

theorem Received.event (h : Received words w) (hne : words ≠ []) (e : Event) :
    (controller m).onEvent e w = w := by
  obtain ⟨hcoming, hfifo, -, hpending, -⟩ := h
  cases e with
  | respond => simp [controller, Controller.respond, hpending]
  | receive => simp [controller, Controller.receive, hcoming]
  | finish => simp [controller, Controller.finish, hfifo, hne]

theorem Drained.event (h : Drained w) (e : Event) : Drained ((controller m).onEvent e w) := by
  obtain ⟨hcoming, hfifo, hpending, hstatus⟩ := h
  cases e with
  | respond =>
    simp only [controller]
    rw [Controller.respond_of_not_pending hpending]
    exact ⟨hcoming, hfifo, hpending, hstatus⟩
  | receive =>
    have hreceive : w.receive = w := by simp [Controller.receive, hcoming]
    simp only [controller]
    rw [hreceive]
    exact ⟨hcoming, hfifo, hpending, hstatus⟩
  | finish =>
    rcases hstatus with ⟨hactive, hirq⟩ | ⟨hactive, hirq⟩
    · have hfinish : w.finish = { w with active := false, irqstat := Irqstat.tc } := by
        simp [Controller.finish, hactive, hcoming, hfifo, hirq]
      simp only [controller]
      rw [hfinish]
      exact ⟨hcoming, hfifo, hpending, .inr ⟨rfl, rfl⟩⟩
    · have hfinish : w.finish = w := by simp [Controller.finish, hactive]
      simp only [controller]
      rw [hfinish]
      exact ⟨hcoming, hfifo, hpending, .inr ⟨hactive, hirq⟩⟩

end Events

/-! ### What the registers tell -/

theorem prsstat_of_and : ∀ cihb dla bren : Bool,
    (Prsstat.of cihb dla bren &&& Prsstat.cihb = 0 ↔ cihb = false) ∧
    (Prsstat.of cihb dla bren &&& Prsstat.dla = 0 ↔ dla = false) ∧
    (Prsstat.of cihb dla bren &&& Prsstat.bren = 0 ↔ bren = false) := by
  decide

theorem prsstat_cihb {w : Controller} : w.prsstat &&& Prsstat.cihb = 0 ↔ w.pending = false :=
  (prsstat_of_and _ _ _).1

theorem prsstat_dla {w : Controller} : w.prsstat &&& Prsstat.dla = 0 ↔ w.coming = [] :=
  (prsstat_of_and _ _ _).2.1.trans (by simp)

theorem prsstat_bren {w : Controller} : w.prsstat &&& Prsstat.bren = 0 ↔ w.fifo = [] :=
  (prsstat_of_and _ _ _).2.2.trans (by simp)

/-! ### The driver with the controller -/

/-- What holds at an access: a word is there when the driver waits for one. -/
def Watched (p : Point) (w : Controller) : Prop :=
  p ≠ .rcvr .complete ∧ ∀ j left, p = .rcvr (.bren j left) → w.fifo ≠ []

/-- Where the driver waits, and what holds there. -/
inductive Waiting : Point → Reg → (Word → Bool) → Controller → Prop
  | idle {w : Controller} (h : w.pending = false) :
    Waiting (.send .idle) .prsstat (fun s => s &&& Prsstat.cihb == 0) w
  | response {w : Controller} (h : Responding w) :
    Waiting (.send .response) .irqstat (fun s => s &&&
      (Irqstat.cie ||| Irqstat.cebe ||| Irqstat.cce ||| Irqstat.cc) != 0) w
  | complete {w : Controller} (h : Drained w) :
    Waiting (.rcvr .complete) .irqstat (fun s => s &&& Irqstat.tc != 0) w

variable {m : Medium} {C : Point → Controller → Step Word Event → Prop}

theorem watched_send (p : SendPoint) (w : Controller) : Watched (.send p) w :=
  ⟨by simp, by simp⟩

/-- The command is issued with the words of its blocks to come. -/
theorem safe_issue_read {command : BitVec 8} {address : Word} {count : BitVec 8} {n : ℕ}
    {w : Controller} (hw : w.Idle) (h0 : count ≠ 0)
    (hdata : (readCommand command address count).xfertyp &&& Xfertyp.dpsel ≠ 0)
    (hn : ∀ w : Controller, w.blkattr >>> 16 = count.setWidth 32 →
      w.blocks (readCommand command address count).xfertyp = n) :
    Safe (controller m) C Watched Waiting
      (fun _ w => Transfer (m.words address n) w ∧ Responding w)
      (issue (readCommand command address count)) w := by
  have hcount : (readCommand command address count).blocks ≠ 0 ∧
      (readCommand command address count).blocks ≠ -1 := by
    simp only [readCommand]
    constructor <;> bv_omega
  have hstill : ∀ {w : Controller}, w.Idle → ∀ e, (controller m).onEvent e w = w :=
    fun h e => h.event e
  simp only [issue, orIrqstat, setBlkcnt, if_pos hcount, bind_eq, update_bind, await_bind, store_bind]
  refine safe_read_of_still (hstill hw) (watched_send _ _) fun bus _ => ?_
  refine safe_write_of_still (hstill hw) (watched_send _ _) ?_
  rw [answer_irqstat, onRead_irqstat, onWrite_irqstat, clear_or_self]
  refine safe_poll_of_still (hstill hw) (fun _ => rfl) (.idle hw.1) fun bus _ => ?_
  refine safe_write_of_still (hstill hw) (watched_send _ _) ?_
  refine safe_read_of_still (hstill hw) (watched_send _ _) fun bus _ => ?_
  refine safe_write_of_still (hstill hw) (watched_send _ _) ?_
  refine safe_read_of_still (hstill hw) (watched_send _ _) fun bus _ => ?_
  refine safe_write_of_still (hstill hw) (watched_send _ _) ?_
  refine safe_write_of_still (hstill hw) (watched_send _ _) ?_
  refine safe_write_of_still (hstill hw) (watched_send _ _) ?_
  -- the state in which the command is issued
  have hissue : ∀ w : Controller, w.irqstat = 0 → w.cmdarg = address →
      w.blkattr >>> 16 = count.setWidth 32 →
      Transfer (m.words address n) (w.issue m (readCommand command address count).xfertyp) ∧
        Responding (w.issue m (readCommand command address count).xfertyp) := by
    intro w hirq harg hblk
    rw [Controller.issue, if_pos hdata, hn w hblk, harg]
    exact ⟨⟨rfl, by simp, rfl⟩, .inl ⟨rfl, hirq⟩⟩
  exact hissue _ rfl rfl (blkcnt_shift _ _)

/-- A data command without errors is answered, and nothing has been read. -/
theorem safe_complete_read {words : List Word} (hne : words ≠ []) (c : Command) {w : Controller}
    (ht : Transfer words w) (hr : Responding w) :
    Safe (controller m) C Watched Waiting (fun r w => r.1 = 0 ∧ Streaming 0 words w)
      (complete c) w := by
  simp only [complete, orIrqstat, bind_eq, pure_eq, await_bind, load_bind]
  refine safe_poll (fun w => Transfer words w ∧ Responding w) ⟨ht, hr⟩
    (fun w e h _ => ⟨h.1.event hne e, h.2.event h.1 hne e⟩) (fun w h => .response h.2)
    (fun w _ h _ _ => h) fun w bus h _ hstop => ?_
  have hanswered : Streaming Irqstat.cc words w := by
    rcases h.2 with ⟨-, hirq⟩ | hdone
    · rw [answer_irqstat, hirq] at hstop
      exact absurd hstop (by decide)
    · exact ⟨h.1, hdone⟩
  rw [answer_irqstat, hanswered.2.2, if_neg (by decide)]
  refine safe_read (Streaming Irqstat.cc words) hanswered (fun w e h _ => h.event hne e)
    (fun w _ => watched_send _ _) fun w bus h _ => ?_
  rw [answer_irqstat, h.2.2, if_neg (by decide)]
  refine safe_read (Streaming Irqstat.cc words) h (fun w e h _ => h.event hne e)
    (fun w _ => watched_send _ _) fun w bus h _ => ?_
  rw [answer_irqstat, h.2.2, if_neg (by decide)]
  refine safe_bind ((safe_getResponse (Streaming Irqstat.cc words) (fun w e h _ => h.event hne e)
    (fun w _ => watched_send _ _) (fun w i v h => h) c h).mono fun response w h => ?_)
  refine safe_read (Streaming Irqstat.cc words) h (fun w e h _ => h.event hne e)
    (fun w _ => watched_send _ _) fun w bus h _ => ?_
  rw [answer_irqstat, h.2.2]
  refine safe_write (Streaming Irqstat.cc words) h (fun w e h _ => h.event hne e)
    (fun w _ => watched_send _ _) fun w _ h _ => ?_
  refine ⟨rfl, h.1, h.2.1, ?_⟩
  simp only [controller, h.2.2]
  decide

/-! ### The block -/

/-- All words that have been received are read. -/
theorem safe_rcvrWords_received {words buff : List Word} {w : Controller} (h : Received words w) :
    Safe (controller m) C Watched Waiting (fun r w => r = (true, buff ++ words) ∧ Drained w)
      (rcvrWords words.length buff) w := by
  induction words generalizing buff w with
  | nil =>
    obtain ⟨hcoming, hfifo, hactive, hpending, hirq⟩ := h
    exact ⟨by rw [List.append_nil], hcoming, hfifo, hpending, .inl ⟨hactive, hirq⟩⟩
  | cons word words ih =>
    have hstill : ∀ e, (controller m).onEvent e w = w := fun e => h.event (by simp) e
    have hfifo : w.fifo ≠ [] := by simp [h.2.1]
    simp only [List.length_cons, rcvrWords, bind_eq, pure_eq, load_bind]
    refine safe_read_of_still hstill ⟨by simp, by simp⟩ fun bus _ => ?_
    rw [answer_irqstat, h.2.2.2.2, if_neg (by decide)]
    refine safe_bind (safe_awaitFor_of_still hstill (fun _ => rfl)
      (fun left => ⟨by simp, fun _ _ _ => hfifo⟩) (fun bus => ?_) ?_ _)
    · simpa using fun hzero => hfifo (prsstat_bren.1 hzero)
    refine safe_read_of_still hstill ⟨by simp, by simp⟩ fun bus _ => ?_
    have htail : Received words ((controller m).onRead .datport word w) :=
      ⟨h.1, by simp [controller, h.2.1], h.2.2⟩
    rw [answer_datport, h.2.1, List.headD_cons, List.append_cons buff word words]
    exact ih htail

/-- The card is not in time where `C` does not require it. -/
def Late (C : Point → Controller → Step Word Event → Prop) : Prop :=
  ∃ w bus, C (.rcvr (.dla 0)) w (.cpu bus) ∧ w.coming ≠ []

theorem not_late_inTime : ¬ Late InTime := by
  rintro ⟨w, bus, hC, hcoming⟩
  exact hcoming (hC rfl)

/-- One block is read, unless its words have not been received in time. -/
theorem safe_rcvrBlocks_one (fuel : ℕ) {words buff : List Word} (hlen : words.length = 128)
    {w : Controller} (h : Streaming 0 words w) :
    Safe (controller m) C Watched Waiting
      (fun r _ => r = (true, buff ++ words) ∨ r = (false, buff) ∧ Late C)
      (rcvrBlocks (fuel + 1 + 1) 512 buff) w := by
  have hne : words ≠ [] := by
    rintro rfl
    simp at hlen
  simp only [rcvrBlocks, bind_eq, pure_eq, await_bind, store_bind]
  rw [if_neg (by decide)]
  refine safe_bind (safe_awaitFor (Streaming 0 words) (fun _ w e h _ => h.event hne e)
    (fun _ w _ => ⟨by simp, by simp⟩) ?_ (fun _ w bus h _ _ => by simpa using h) ?_ _ h)
  · intro _ w bus h _ hstop
    have hcoming : w.coming = [] := prsstat_dla.1 (by simpa using hstop)
    have hreceived : Received words w :=
      ⟨hcoming, by simpa [hcoming] using h.1.1, h.1.2.2, h.2⟩
    have hwords : ((if 512 < 512 then 512 else 512) + 3) >>> 2 = words.length := by
      rw [hlen]
      rfl
    refine safe_bind ?_
    rw [hwords]
    refine (safe_rcvrWords_received hreceived).mono ?_
    rintro _ w ⟨rfl, hdrained⟩
    refine safe_poll Drained hdrained (fun w e h _ => h.event e) (fun w h => .complete h)
      (fun w _ h _ _ => h) fun w _ h _ _ => ?_
    exact safe_write Drained h (fun w e h _ => h.event e) (fun w _ => ⟨by simp, by simp⟩)
      fun w _ h _ => .inl rfl
  · intro w bus h hC hstop
    refine .inr ⟨rfl, w, bus, hC, fun hcoming => ?_⟩
    exact absurd hstop (by simpa using prsstat_dla.2 hcoming)

/-- A block is not read while there are more words than the queue has room for. -/
theorem safe_rcvrBlocks_many (fuel : ℕ) {bytes : ℕ} (hbytes : bytes ≠ 0) {words : List Word}
    (hlen : 128 < words.length) {w : Controller} (h : Streaming 0 words w) :
    Safe (controller m) C (fun _ _ => True) (fun _ _ _ _ => True) (fun r _ => r = (false, []))
      (rcvrBlocks (fuel + 1) bytes []) w := by
  have hne : words ≠ [] := by
    rintro rfl
    simp at hlen
  simp only [rcvrBlocks, bind_eq, pure_eq, await_bind, store_bind]
  rw [if_neg hbytes]
  refine safe_bind (safe_awaitFor (Streaming 0 words) (fun _ w e h _ => h.event hne e)
    (fun _ w _ => trivial) ?_ (fun _ w bus h _ _ => by simpa using h) ?_ _ h)
  · intro _ w bus h _ hstop
    -- the queue has room for 128 words, so that some have not been received
    have hcoming : w.coming = [] := prsstat_dla.1 (by simpa using hstop)
    have hfifo : w.fifo = words := by simpa [hcoming] using h.1.1
    have hroom := h.1.2.1
    rw [hfifo] at hroom
    omega
  · exact fun w _ _ _ _ => rfl

/-! ### The call -/

theorem length_words (m : Medium) (address : Word) (n : ℕ) :
    (m.words address n).length = 128 * n := by
  simp only [Medium.words, List.length_flatMap, List.length_ofFn, List.map_const', List.length_range,
    List.sum_replicate, smul_eq_mul, mul_comm]

theorem sendCommand_readCommand {command : BitVec 8} (h : commandXfertyp.getD (command &&& 0x3F).toNat 0 ≠ 0)
    (address : Word) (count : BitVec 8) :
    sendCommand (readCommand command address count) =
      (issue (readCommand command address count)).bind fun _ =>
        complete (readCommand command address count) := by
  simp only [sendCommand, bind_eq, pure_eq]
  rw [if_neg]
  exact fun hzero => h hzero.1

/-- A sector is read, unless it is not received in time. -/
theorem safe_diskRead_one {g : Disk} (hg : g.Ready) (sector : Word) {w : Controller} (hw : w.Idle) :
    Safe (controller m) C Watched Waiting
      (fun r _ => r = (.ok, m.words (g.addressOf sector) 1) ∨ r = (.error, []) ∧ Late C)
      (diskRead g 0 true sector 1) w := by
  have hlen := length_words m (g.addressOf sector) 1
  have hne : m.words (g.addressOf sector) 1 ≠ [] := by
    intro h
    simp [h] at hlen
  rw [diskRead_one hg, sendCommand_readCommand (by decide)]
  refine safe_bind (safe_bind ((safe_issue_read hw (by decide) (n := 1) ?_ ?_).mono ?_))
  · rw [xfertyp_one]
    decide
  · intro w _
    rw [Controller.blocks, xfertyp_one, if_pos (by decide)]
  · intro _ w h
    refine (safe_complete_read hne _ h.1 h.2).mono fun r w h => ?_
    rw [if_pos h.1]
    refine safe_bind ((safe_rcvrBlocks_one 510 hlen h.2).mono ?_)
    rintro _ w (rfl | ⟨rfl, hlate⟩)
    · exact .inl rfl
    · exact .inr ⟨rfl, hlate⟩

/-- More than one sector is not read. -/
theorem safe_diskRead_many {g : Disk} (hg : g.Ready) (sector : Word) {count : BitVec 8}
    (hcount : 1 < count) {w : Controller} (hw : w.Idle) :
    Safe (controller m) C (fun _ _ => True) (fun _ _ _ _ => True) (fun r _ => r = (.error, []))
      (diskRead g 0 true sector count) w := by
  have h0 : count ≠ 0 := by bv_omega
  have h1 : count ≠ 1 := by bv_omega
  have hlen := length_words m (g.addressOf sector) count.toNat
  have hmore : 128 < (m.words (g.addressOf sector) count.toNat).length := by
    have : 1 < count.toNat := hcount
    omega
  have hne : m.words (g.addressOf sector) count.toNat ≠ [] := by
    intro h
    simp [h] at hmore
  rw [diskRead_many hg sector h0 h1, sendCommand_readCommand (by decide)]
  refine safe_bind (safe_bind (((safe_issue_read hw h0 (n := count.toNat) ?_ ?_).weaken
    (fun _ _ _ => trivial) (fun _ _ _ _ _ => trivial)).mono ?_))
  · rw [xfertyp_many _ hcount]
    decide
  · intro w hblk
    rw [Controller.blocks, xfertyp_many _ hcount, if_neg (by decide), hblk]
    exact BitVec.toNat_setWidth_of_le (by decide)
  · intro _ w h
    refine ((safe_complete_read hne _ h.1 h.2).weaken (fun _ _ _ => trivial)
      (fun _ _ _ _ _ => trivial)).mono fun r w h => ?_
    rw [if_pos h.1]
    have hbytes : 512 * count.toNat = (512 * count.toNat - 1) + 1 := by omega
    have hblocks : Safe (controller m) C (fun _ _ => True) (fun _ _ _ _ => True)
        (fun r _ => r = (false, [])) (rcvrDatablock (512 * count.toNat)) w := by
      rw [rcvrDatablock, hbytes]
      exact safe_rcvrBlocks_many _ (by omega) hmore h.2
    refine safe_bind (hblocks.mono ?_)
    rintro _ w rfl
    exact safe_bind ((safe_trivial _ w).mono fun _ _ _ => rfl)

/-! ### Runs -/

theorem Waiting.not_pending {r : Reg} {stop : Word → Bool} {w : Controller}
    (h : Waiting (.send .idle) r stop w) : w.pending = false := by
  cases h with
  | idle h => exact h

theorem Waiting.responding {r : Reg} {stop : Word → Bool} {w : Controller}
    (h : Waiting (.send .response) r stop w) : Responding w := by
  cases h with
  | response h => exact h

theorem Waiting.drained {r : Reg} {stop : Word → Bool} {w : Controller}
    (h : Waiting (.rcvr .complete) r stop w) : Drained w := by
  cases h with
  | complete h => exact h

theorem pending_event {w : Controller} (h : w.pending = false) (e : Event) :
    ((controller m).onEvent e w).pending = false := by
  cases e with
  | respond => simpa [controller, Controller.respond_of_not_pending h] using h
  | receive => exact (Controller.receive_pending w).trans h
  | finish =>
    simp only [controller, Controller.finish]
    split <;> exact h

theorem active_event {w : Controller} (h : w.active = false) (e : Event) :
    ((controller m).onEvent e w).active = false := by
  cases e with
  | respond =>
    simp only [controller, Controller.respond]
    split <;> exact h
  | receive =>
    simp only [controller, Controller.receive]
    split
    · exact h
    · split <;> exact h
  | finish => simp [controller, Controller.finish, h]

/-- With a controller that keeps going, none of the three waits of the driver goes on for ever. -/
theorem polls_end {c : Driver (DResult × List Word) × Controller} {inp : ℕ → Step Word Event}
    (hinp : Fair inp)
    (hwait : ∀ n p r stop k, (trace (step (controller m)) c inp n).1 = .poll p r stop k →
      Waiting p r stop (trace (step (controller m)) c inp n).2)
    {n : ℕ} {p : Point} {r : Reg} {stop : Word → Bool} {k : Word → Driver (DResult × List Word)}
    (hn : (trace (step (controller m)) c inp n).1 = .poll p r stop k) :
    ∃ i, n < i ∧ ∃ v, (trace (step (controller m)) c inp i).1 = k v := by
  cases hwait n p r stop k hn with
  | idle _ =>
    refine poll_ends hn fun hstays => ?_
    obtain ⟨i, hi, bus, hbus⟩ := hinp.cpu n
    have hidle := (hwait i _ _ _ _ (hstays i hi)).not_pending
    exact ⟨i, hi, bus, hbus, by simpa using prsstat_cihb.2 hidle⟩
  | response _ =>
    refine poll_ends_of_event hinp.cpu (fun w => w.pending = false) (hinp.event .respond) hn
      (fun _ _ => rfl) (fun e w h => pending_event h e) (fun i _ => Controller.respond_pending _)
      fun i bus hi hready => ?_
    · rcases (hwait i _ _ _ _ hi).responding with ⟨hpending, -⟩ | ⟨-, hirq⟩
      · exact absurd (hpending.symm.trans hready) (by simp)
      · rw [answer_irqstat, hirq]
        decide
  | complete _ =>
    refine poll_ends_of_event hinp.cpu (fun w => w.active = false) (hinp.event .finish) hn
      (fun _ _ => rfl) (fun e w h => active_event h e) (fun i hi => ?_) fun i bus hi hready => ?_
    · obtain ⟨hcoming, hfifo, -, -⟩ := (hwait i _ _ _ _ hi).drained
      exact Controller.finish_active hcoming hfifo
    · rcases (hwait i _ _ _ _ hi).drained.2.2.2 with ⟨hactive, -⟩ | ⟨-, hirq⟩
      · exact absurd (hactive.symm.trans hready) (by simp)
      · rw [answer_irqstat, hirq]
        decide

section Call

variable {g : Disk} {w : Controller} {sector : Word} {inp : ℕ → Step Word Event}

/-- A call for one sector that is received in time is never stuck. -/
theorem not_stuck_of_inTime (hg : g.Ready) (hw : w.Idle)
    (hC : ∀ n, Meets InTime (blocksRun m g w sector 1 inp n) (inp n)) (n : ℕ) :
    ¬ Stuck (blocksRun m g w sector 1 inp n) (inp n) := by
  have hsafe := safe_trace (c := (diskRead g 0 true sector 1, w)) (safe_diskRead_one hg sector hw)
    inp hC n
  rintro ⟨hunread, hpoint | ⟨bus, hbus, ⟨hpoint, hdla⟩ | ⟨j, hpoint, hbren⟩⟩⟩
  · rcases hsafe.at_point hpoint with hJ | ⟨r, stop, hK⟩
    · exact hJ.1 rfl
    · obtain ⟨hcoming, hfifo, -⟩ := hK.drained
      exact hunread.elim (· hcoming) (· hfifo)
  · have hin := hC n _ hpoint
    rw [hbus] at hin
    exact hdla (prsstat_dla.2 (hin rfl))
  · rcases hsafe.at_point hpoint with hJ | ⟨r, stop, hK⟩
    · exact hJ.2 j 0 rfl (prsstat_bren.1 hbren)
    · cases hK

/-- It returns the words of the sector. -/
theorem returns_of_inTime (hg : g.Ready) (hw : w.Idle) (hinp : Fair inp)
    (hC : ∀ n, Meets InTime (blocksRun m g w sector 1 inp n) (inp n)) :
    ∃ n, (blocksRun m g w sector 1 inp n).1 = .done (.ok, m.words (g.addressOf sector) 1) := by
  have hsafe := safe_trace (c := (diskRead g 0 true sector 1, w)) (safe_diskRead_one hg sector hw)
    inp hC
  obtain ⟨n, -, a, hn⟩ := trace_done hinp.cpu 0 fun n _ p r stop k hn =>
    polls_end hinp (fun n p r stop k hn => (hsafe n).at_poll hn) hn
  refine ⟨n, ?_⟩
  have hQ := hsafe n
  rw [hn] at hQ
  rcases hQ with rfl | ⟨-, hlate⟩
  · exact hn
  · exact absurd hlate not_late_inTime

/-- Whatever a call for one sector reads successfully is the sector. -/
theorem words_of_ok (hg : g.Ready) (hw : w.Idle) {n : ℕ} {words : List Word}
    (hn : (blocksRun m g w sector 1 inp n).1 = .done (.ok, words)) :
    words = m.words (g.addressOf sector) 1 := by
  have hQ := safe_trace (C := fun _ _ _ => True) (c := (diskRead g 0 true sector 1, w))
    (safe_diskRead_one (m := m) hg sector hw) inp (fun n p _ => trivial) n
  rw [show (trace (step (controller m)) (diskRead g 0 true sector 1, w) inp n).1 = _ from hn] at hQ
  rcases hQ with hQ | ⟨hQ, -⟩
  · exact (Prod.mk.inj hQ).2
  · cases hQ

/-- No call for more than one sector succeeds. -/
theorem not_ok_of_many (hg : g.Ready) (hw : w.Idle) {count : BitVec 8} (hcount : 1 < count) (n : ℕ)
    (words : List Word) : (blocksRun m g w sector count inp n).1 ≠ .done (.ok, words) := by
  intro hn
  have hQ := safe_trace (C := fun _ _ _ => True) (c := (diskRead g 0 true sector count, w))
    (safe_diskRead_many (m := m) hg sector hcount hw) inp (fun n p _ => trivial) n
  rw [show (trace (step (controller m)) (diskRead g 0 true sector count, w) inp n).1 = _ from hn] at hQ
  cases hQ

end Call

/-- **Reads of several sectors.** A call agrees with the calls for the single sectors, and is never
stuck, exactly if it is for one sector, and the card has sent this when the driver looks at `DLA` for
the last time. -/
theorem agrees_iff (m : Medium) (g : Disk) (w : Controller) (sector : Word) (count : BitVec 8)
    (inp : ℕ → Step Word Event) (hg : g.Ready) (hw : w.Idle) (hcount : count ≠ 0) (hinp : Fair inp) :
    Agrees m g w sector count inp ↔
      count = 1 ∧ ∀ n, Meets InTime (blocksRun m g w sector count inp n) (inp n) := by
  constructor
  · rintro ⟨⟨n, words, hn, -⟩, hprogress⟩
    refine ⟨?_, fun n p hp => ?_⟩
    · by_contra h1
      have hmany : 1 < count := by bv_omega
      exact not_ok_of_many hg hw hmany n words hn
    · cases hbus : inp n with
      | event e => trivial
      | cpu bus =>
        rintro rfl
        by_contra hcoming
        exact hprogress n ⟨.inl hcoming, .inr ⟨bus, hbus, .inl ⟨hp, fun h => hcoming (prsstat_dla.1 h)⟩⟩⟩
  · rintro ⟨rfl, hC⟩
    obtain ⟨n, hn⟩ := returns_of_inTime hg hw hinp hC
    refine ⟨⟨n, _, hn, fun i hi w' inp' n' words' hw' _ hn' => ?_⟩, not_stuck_of_inTime hg hw hC⟩
    obtain rfl : i = 0 := by
      change i < 1 at hi
      omega
    have hsector : sector + BitVec.ofNat 32 0 = sector := by simp
    rw [hsector] at hn'
    rw [words_of_ok hg hw' hn', mul_zero, List.drop_zero, List.take_of_length_le]
    rw [length_words]

/-- A run is in time if it is until the call returns. -/
theorem inTime_of_check {m : Medium} {g : Disk} {w : Controller} {sector : Word} {count : BitVec 8}
    {inp : ℕ → Step Word Event} (n₀ : ℕ)
    (hcheck : Along (step (controller m)) (fun c _ => c.1.point ≠ some (.rcvr (.dla 0)))
      (diskRead g 0 true sector count, w) ((List.range n₀).map inp))
    (hdone : (blocksRun m g w sector count inp n₀).1.result.isSome) (n : ℕ) :
    Meets InTime (blocksRun m g w sector count inp n) (inp n) := by
  intro p hp
  by_cases hn : n < n₀
  · cases inp n with
    | event e => trivial
    | cpu bus =>
      rintro rfl
      exact absurd hp (along_map_range.1 hcheck n hn)
  · obtain ⟨a, ha⟩ := Option.isSome_iff_exists.1 hdone
    have hend := trace_of_done (Prod.ext (result_eq_some.1 ha) rfl) (not_lt.1 hn)
    rw [show blocksRun m g w sector count inp n = _ from hend] at hp
    cases hp

/-- In each round of 560 steps the response comes, 128 words are received and a data command may
come to its end. -/
def rounds (n : ℕ) : Step Word Event :=
  if n % 560 = 10 then .event .respond
  else if 10 < n % 560 ∧ n % 560 < 139 then .event .receive
  else if n % 560 = 545 then .event .finish
  else .cpu 0

theorem fair_rounds : Fair rounds where
  cpu n := ⟨560 * n, by omega, 0, by simp [rounds]⟩
  event e n := by
    cases e with
    | respond => exact ⟨560 * n + 10, by omega, by simp [rounds, Nat.add_mod]⟩
    | receive => exact ⟨560 * n + 11, by omega, by simp [rounds, Nat.add_mod]⟩
    | finish => exact ⟨560 * n + 545, by omega, by simp [rounds, Nat.add_mod]⟩

/-- A card of high capacity whose blocks have the numbers of their words. -/
def numbered : Medium := ⟨fun n i => .ofNat 32 (128 * n + i), true⟩

/-- A controller after the identification. -/
def idle : Controller := ⟨0, 0x00010200, 0, false, [], [], false⟩

theorem idle_idle : idle.Idle := ⟨rfl, rfl, rfl, rfl⟩

/-- The sector that the sketch reads. -/
theorem agrees_rounds : Agrees numbered anyDisk idle 16512 1 rounds :=
  (agrees_iff numbered anyDisk idle 16512 1 rounds anyDisk_ready idle_idle (by decide)
    fair_rounds).2 ⟨rfl, inTime_of_check 550 (by decide +kernel) (by decide +kernel)⟩

/-- The two sectors that the sketch would read if its test were not disabled. -/
theorem not_agrees_two : ¬ Agrees numbered anyDisk idle 16512 2 rounds := by
  rintro ⟨⟨n, words, hn, -⟩, -⟩
  exact not_ok_of_many anyDisk_ready idle_idle (by decide) n words hn

end Sdhc
