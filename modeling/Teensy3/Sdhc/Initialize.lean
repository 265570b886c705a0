import Mathlib.Tactic
import Teensy3.Lib.RegProgram
import Teensy3.Sdhc.Driver

/-!
# The identification of the card

`disk_initialize` has a result with the bits of `Stat`, in which `STA_NOINIT` says that the card has
not been initialised; but at each of its exits for an error it returns `FALSE`, which is 0.  `Stat`
itself keeps the bit, so that a later call tries again and `disk_read` refuses to read.

What the card and the controller do to a call is given by the values of the registers that it reads,
so a call is a list of these.

* `InitStep`, `initSteps`, `runSteps`: the identification as a list of steps that may fail, and
  `diskInitialize_eq`, which says that this is what the function does;
* `Call`, `Call.outcome`: a call, and what becomes of its steps;
* `identified`: what a sequence of calls has found out about the card, and `after_spec`, which
  relates it to the variables of the driver;
* `TellsTheTruth`: that the results of all calls are right.
-/

namespace Sdhc

open RegProgram RegProgram.Prog Machine

/-! ### The steps -/

/-- A step of the identification: whether it succeeds, and what the variables of the driver and the
variable `command` are then. -/
abbrev InitStep := Disk × Command → Driver (Bool × Disk × Command)

/-- `Initialize and detect card` -/
def detectStep (junk : Response) : InitStep := fun s =>
  (ioctlInit s.1 junk).bind fun r => .done (decide (r.1 = .ok), r.2, s.2)

/-- `SDHC check` -/
def cardStep : InitStep := fun s =>
  (ioctlGetCard s.1).bind fun r =>
    if r.1 ≠ .ok then .done (false, r.2, s.2)
    else if r.2.card = .sd ∨ r.2.card = .sdcombo then .done (true, r.2, s.2)
    else if r.2.card = .sdhc ∨ r.2.card = .sdhccombo then
      .done (true, { r.2 with sdcard.sdhcx := true }, s.2)
    else .done (false, r.2, s.2)

/-- A command, and what is kept of its response. -/
def sendStep (command : BitVec 8) (argument : Disk → Word) (keep : Disk → Response → Disk) :
    InitStep := fun s =>
  (ioctlSendCommand s.1 { s.2 with command, argument := argument s.1 }).bind fun r =>
    if r.1 = .ok then .done (true, keep s.1 r.2.response, r.2) else .done (false, s.1, r.2)

/-- `IO_IOCTL_ESDHC_SET_BUS_WIDTH` with four bits -/
def busStep : InitStep := fun s =>
  (ioctlSetBusWidth s.1 1).bind fun r => .done (decide (r = .ok), s)

/-- The steps from the identify command on. -/
def identifySteps : List InitStep :=
  [ sendStep 2 (fun _ => 0) fun g _ => g,
    sendStep 3 (fun _ => 0) fun g r => { g with sdcard.address := r.r0 &&& 0xFFFF0000 },
    sendStep 9 (fun g => g.sdcard.address) fun g r => { g with sdcard := g.sdcard.withCsd r },
    sendStep 7 (fun g => g.sdcard.address) fun g _ => g,
    sendStep 16 (fun _ => 512) fun g _ => g,
    sendStep 55 (fun g => g.sdcard.address) fun g _ => g,
    sendStep (0x40 + 6) (fun _ => 2) fun g _ => g,
    busStep ]

/-- The steps of `disk_initialize`. -/
def initSteps (junk : Response) : List InitStep := detectStep junk :: cardStep :: identifySteps

/-- The steps, up to the first one that fails. -/
def runSteps : List InitStep → Disk × Command → Driver (Bool × Disk × Command)
  | [], s => .done (true, s)
  | f :: fs, s => (f s).bind fun r => if r.1 then runSteps fs r.2 else .done (false, r.2)

/-- The return values: 0 when a step fails. -/
def initResult (r : Bool × Disk × Command) : BitVec 8 × Disk :=
  if r.1 then
    (((r.2.1.stat &&& ~~~staNoinit) &&& 0x03).setWidth 8,
      { r.2.1 with stat := r.2.1.stat &&& ~~~staNoinit })
  else (0, r.2.1)

/-- The variable `command` of `disk_initialize` at first. -/
def firstCommand (junk : Response) : Command := { command := 0, argument := 0, response := junk }

/-- The variables with which the steps start. -/
def Disk.cleared (g : Disk) : Disk := { g with init := true, sdcard := ⟨0, false, false, 0⟩ }

/-- The steps and the return. -/
def finishSteps (fs : List InitStep) (s : Disk × Command) : Driver (BitVec 8 × Disk) :=
  (runSteps fs s).bind fun r => .done (initResult r)

theorem finishSteps_cons (f : InitStep) (fs : List InitStep) (s : Disk × Command) :
    finishSteps (f :: fs) s =
      (f s).bind fun r => if r.1 then finishSteps fs r.2 else .done (0, r.2.1) := by
  simp only [finishSteps, runSteps, bind_assoc]
  refine congrArg (Prog.bind _) (funext fun r => ?_)
  split
  · rfl
  · rfl

theorem finishSteps_sendStep (command : BitVec 8) (argument : Disk → Word)
    (keep : Disk → Response → Disk) (fs : List InitStep) (g : Disk) (c : Command) :
    finishSteps (sendStep command argument keep :: fs) (g, c) =
      (ioctlSendCommand g { c with command, argument := argument g }).bind fun r =>
        if r.1 ≠ .ok then .done (0, g) else finishSteps fs (keep g r.2.response, r.2) := by
  rw [finishSteps_cons, sendStep, bind_assoc]
  refine congrArg (Prog.bind _) (funext fun r => ?_)
  by_cases h : r.1 = .ok
  · simp [h]
  · simp [h]

theorem finishSteps_busStep (g : Disk) (c : Command) :
    finishSteps [busStep] (g, c) =
      (ioctlSetBusWidth g 1).bind fun r =>
        if r ≠ .ok then .done (0, g) else .done (initResult (true, g, c)) := by
  rw [finishSteps_cons, busStep, bind_assoc]
  refine congrArg (Prog.bind _) (funext fun r => ?_)
  by_cases h : r = .ok
  · simp [h, finishSteps, runSteps]
  · simp [h]

theorem identifyCard_eq (g : Disk) (junk : Response) :
    identifyCard g junk = finishSteps identifySteps (g, firstCommand junk) := by
  simp only [identifySteps, finishSteps_sendStep, finishSteps_busStep]
  rfl

/-- **The steps are those of the function.** -/
theorem diskInitialize_eq {g : Disk} (hdisk : g.stat &&& staNodisk = 0) (hinit : g.stat &&& 0x03 ≠ 0)
    (junk junk' : Response) :
    diskInitialize g 0 junk junk' = finishSteps (initSteps junk) (g.cleared, firstCommand junk') := by
  simp only [diskInitialize, hdisk, hinit, ne_eq, not_true_eq_false, if_false, bind_eq, pure_eq]
  rw [initSteps, finishSteps_cons, detectStep, bind_assoc]
  refine congrArg (Prog.bind _) (funext fun r => ?_)
  by_cases hr : r.1 = .ok
  swap
  · simp [hr]
  simp only [hr, not_true_eq_false, if_false, decide_true, done_bind, if_true]
  rw [finishSteps_cons, cardStep, bind_assoc]
  refine congrArg (Prog.bind _) (funext fun r => ?_)
  by_cases hr : r.1 = .ok
  swap
  · simp [hr]
  simp only [hr, ne_eq, not_true_eq_false, if_false, identifyCard_eq]
  split_ifs <;> rfl

/-! ### What a step leaves alone -/

/-- `Stat` and the pointer to the device are as before. -/
def SameStat (g g' : Disk) : Prop := g'.stat = g.stat ∧ g'.init = g.init

theorem SameStat.trans {g g' g'' : Disk} (h : SameStat g g') (h' : SameStat g' g'') :
    SameStat g g'' :=
  ⟨h'.1.trans h.1, h'.2.trans h.2⟩

theorem ioctlInitWith_sameStat (init : InitStruct) (g : Disk) (junk : Response) :
    (ioctlInitWith init g junk).Post fun r => SameStat g r.2 := by
  have hsame : ∀ (r : Result) (card : CardType), (.done (r, { g with card }) :
      Driver (Result × Disk)).Post fun r => SameStat g r.2 := fun r card => ⟨rfl, rfl⟩
  have hdone : ∀ card : CardType, ((setBaudrate init.clockSpeed init.baudRate).bind fun _ =>
      (.done (.ok, { g with card }) : Driver (Result × Disk))).Post fun r => SameStat g r.2 :=
    fun card => post_bind _ fun _ => hsame _ card
  simp only [ioctlInitWith, bind_eq, pure_eq]
  split
  · exact ⟨rfl, rfl⟩
  refine post_bind _ fun card => post_bind _ fun r => ?_
  split
  · exact hsame _ card
  refine post_bind _ fun r => ?_
  split
  · exact hsame _ card
  refine post_bind _ fun r => ?_
  split
  · exact hsame _ card
  split
  · refine post_bind _ fun kind => ?_
    cases kind with
    | none => exact hsame _ card
    | some kind => exact hdone _
  · refine post_bind _ fun kind => ?_
    cases kind with
    | none => exact hsame _ card
    | some kind => exact hdone _

theorem ioctlGetCard_sameStat (g : Disk) : (ioctlGetCard g).Post fun r => SameStat g r.2 := by
  simp only [ioctlGetCard, bind_eq, pure_eq]
  split
  · exact ⟨rfl, rfl⟩
  refine post_bind _ fun _ => post_bind _ fun s => ?_
  split
  · exact post_bind _ fun _ => post_bind _ fun s => ⟨rfl, rfl⟩
  refine post_bind _ fun s => ?_
  split
  · exact ⟨rfl, rfl⟩
  rw [post_done]
  split
  · exact ⟨rfl, rfl⟩
  · exact ⟨rfl, rfl⟩

/-- A step that leaves them alone. -/
def Keeps (f : InitStep) : Prop := ∀ s, (f s).Post fun r => SameStat s.1 r.2.1

theorem keeps_detectStep (junk : Response) : Keeps (detectStep junk) :=
  fun s => (ioctlInitWith_sameStat k60Sdhc0Init s.1 junk).bind fun _ h => h

theorem keeps_cardStep : Keeps cardStep := by
  intro s
  refine (ioctlGetCard_sameStat s.1).bind fun r h => ?_
  split
  · exact h
  split
  · exact h
  split
  · exact h
  · exact h

theorem keeps_sendStep (command : BitVec 8) (argument : Disk → Word) {keep : Disk → Response → Disk}
    (hkeep : ∀ g r, SameStat g (keep g r)) : Keeps (sendStep command argument keep) := by
  intro s
  refine post_bind _ fun r => ?_
  split
  · exact hkeep _ _
  · exact ⟨rfl, rfl⟩

theorem keeps_busStep : Keeps busStep := fun _ => post_bind _ fun _ => ⟨rfl, rfl⟩

theorem keeps_initSteps (junk : Response) : ∀ f ∈ initSteps junk, Keeps f := by
  have hsame : ∀ (command : BitVec 8) (argument : Disk → Word),
      Keeps (sendStep command argument fun g _ => g) :=
    fun command argument => keeps_sendStep command argument fun _ _ => ⟨rfl, rfl⟩
  simp only [initSteps, identifySteps, List.forall_mem_cons]
  exact ⟨keeps_detectStep junk, keeps_cardStep, hsame _ _, keeps_sendStep _ _ fun _ _ => ⟨rfl, rfl⟩,
    keeps_sendStep _ _ fun _ _ => ⟨rfl, rfl⟩, hsame _ _, hsame _ _, hsame _ _, hsame _ _,
    keeps_busStep, fun f hf => by cases hf⟩

theorem keeps_runSteps {fs : List InitStep} (h : ∀ f ∈ fs, Keeps f) (s : Disk × Command) :
    (runSteps fs s).Post fun r => SameStat s.1 r.2.1 := by
  induction fs generalizing s with
  | nil => exact ⟨rfl, rfl⟩
  | cons f fs ih =>
    refine (h f List.mem_cons_self s).bind fun r hr => ?_
    split
    · exact (ih (fun f hf => h f (List.mem_cons_of_mem _ hf)) r.2).mono fun _ h => hr.trans h
    · exact hr

/-! ### Calls -/

/-- The variables of the driver at first. -/
def Disk.start : Disk := ⟨staNoinit, false, .none, ⟨0, false, false, 0⟩⟩

/-- A call of `disk_initialize(0)`: the values that it reads from the registers, and what its
variables have at first. -/
structure Call where
  tape : List Word
  junk : Response
  junk' : Response

/-- What a call returns, if it does. -/
def Call.run (c : Call) (g : Disk) : Option (BitVec 8 × Disk) :=
  ((diskInitialize g 0 c.junk c.junk').eval c.tape).map Prod.fst

/-- Where the steps of a call end, on a driver that has just been started. -/
def Call.steps (c : Call) : Option (Bool × Disk × Command) :=
  ((runSteps (initSteps c.junk) (Disk.start.cleared, firstCommand c.junk')).eval c.tape).map Prod.fst

/-- What becomes of the steps of a call: they go on for ever, or one of them fails, or they all
succeed and find out about the card. -/
def Call.outcome (c : Call) : Option (Option SdCard) :=
  c.steps.map fun r => if r.1 then some r.2.1.sdcard else none

/-- What is known about the card after some calls: what the first call all of whose steps succeed
has found out. -/
def identified (calls : List Call) : Option SdCard := calls.findSome? fun c => c.outcome.join

/-- The variables of the driver after some calls, if they return. -/
def after (g : Disk) : List Call → Option Disk
  | [] => some g
  | c :: calls => (c.run g).bind fun r => after r.2 calls

/-- In a run with any device, a call is one with the values that it has read. -/
theorem run_of_device {E W : Type} (d : Device Reg Word E W) (g : Disk) (junk junk' : Response) (w : W)
    (es : List (Step Word E)) {r : BitVec 8 × Disk}
    (h : (Machine.run (step d) (diskInitialize g 0 junk junk', w) es).1 = .done r) :
    Call.run ⟨answers d (diskInitialize g 0 junk junk', w) es, junk, junk'⟩ g = some r := by
  rw [Call.run, eval_answers d (diskInitialize g 0 junk junk', w) es h]
  rfl

/-- The type of the card that was there before does not matter. -/
theorem ioctlInit_card {g : Disk} (hg : g.init = true) (card : CardType) (junk : Response) :
    ioctlInit { g with card } junk = ioctlInit g junk := by
  simp only [ioctlInit, ioctlInitWith, hg, Bool.not_true, Bool.false_eq_true, if_false]

/-- A call that finds `STA_NOINIT` does what it would do first. -/
theorem run_of_noinit {g : Disk} (hg : g.stat = staNoinit) (c : Call) :
    c.run g = c.steps.map initResult := by
  have hcard : detectStep c.junk (g.cleared, firstCommand c.junk') =
      detectStep c.junk (Disk.start.cleared, firstCommand c.junk') := by
    have hstart : g.cleared = { Disk.start.cleared with card := g.card } := by
      simp [Disk.cleared, Disk.start, hg]
    simp only [detectStep]
    rw [hstart, ioctlInit_card rfl]
  have hdisk : g.stat &&& staNodisk = 0 := by
    rw [hg]
    decide
  have hinit : g.stat &&& 0x03 ≠ 0 := by
    rw [hg]
    decide
  rw [Call.run, diskInitialize_eq hdisk hinit, finishSteps, initSteps, runSteps, hcard, Call.steps,
    initSteps, runSteps, eval_bind]
  cases ((detectStep c.junk (Disk.start.cleared, firstCommand c.junk')).bind fun r =>
    if r.1 then runSteps (cardStep :: identifySteps) r.2 else .done (false, r.2)).eval c.tape with
  | none => rfl
  | some y => rfl

/-- The steps leave `STA_NOINIT` set. -/
theorem steps_stat {c : Call} {r : Bool × Disk × Command} (h : c.steps = some r) :
    r.2.1.stat = staNoinit ∧ r.2.1.init = true := by
  obtain ⟨⟨r', t⟩, heval, rfl⟩ := Option.map_eq_some_iff.1 h
  exact (keeps_runSteps (keeps_initSteps c.junk) _).eval heval

/-- A call that finds `STA_NOINIT` clear returns at once. -/
theorem diskInitialize_of_clear {g : Disk} (hg : g.stat = 0) (junk junk' : Response) :
    diskInitialize g 0 junk junk' = .done (0, g) := by
  simp [diskInitialize, hg]

theorem run_of_clear {g : Disk} (hg : g.stat = 0) (c : Call) : c.run g = some (0, g) := by
  rw [Call.run, diskInitialize_of_clear hg]
  rfl

theorem after_of_clear {g : Disk} (hg : g.stat = 0) (calls : List Call) :
    after g calls = some g := by
  induction calls with
  | nil => rfl
  | cons c calls ih =>
    rw [after, run_of_clear hg]
    exact ih

/-- **Calls.** As long as no call has found out about the card `STA_NOINIT` is set; from then on it
is clear, and the fields of the card are those that this call has found out. -/
theorem after_spec {g g' : Disk} (hg : g.stat = staNoinit) {calls : List Call}
    (h : after g calls = some g') :
    g'.stat = staNoinit ∧ identified calls = none ∨
      g'.stat = 0 ∧ g'.init = true ∧ identified calls = some g'.sdcard := by
  induction calls generalizing g with
  | nil =>
    obtain rfl := Option.some.inj h
    exact .inl ⟨hg, rfl⟩
  | cons c calls ih =>
    rw [after, run_of_noinit hg] at h
    cases hsteps : c.steps with
    | none =>
      rw [hsteps] at h
      cases h
    | some r =>
      obtain ⟨ok, g₁, command⟩ := r
      obtain ⟨hstat, hinit⟩ := steps_stat hsteps
      rw [hsteps] at h
      cases ok with
      | false =>
        have hout : c.outcome.join = none := by simp [Call.outcome, hsteps]
        have hrest : identified (c :: calls) = identified calls := by
          rw [identified, List.findSome?_cons, hout]
          rfl
        rw [hrest]
        exact ih hstat h
      | true =>
        have hout : c.outcome.join = some g₁.sdcard := by simp [Call.outcome, hsteps]
        have hclear : g₁.stat &&& ~~~staNoinit = 0 := by
          rw [hstat]
          decide
        have hend : g' = { g₁ with stat := g₁.stat &&& ~~~staNoinit } :=
          (Option.some.inj ((after_of_clear hclear calls).symm.trans h)).symm
        subst hend
        refine .inr ⟨hclear, hinit, ?_⟩
        rw [identified, List.findSome?_cons, hout]

theorem after_append (g : Disk) (calls calls' : List Call) :
    after g (calls ++ calls') = (after g calls).bind fun g => after g calls' := by
  induction calls generalizing g with
  | nil => rfl
  | cons c calls ih =>
    rw [List.cons_append, after, after]
    cases c.run g with
    | none => rfl
    | some r => exact ih r.2

/-- A call that returns, returns 0. -/
theorem run_eq_zero {g g' : Disk} (hg : g.stat = staNoinit ∨ g.stat = 0) {c : Call} {ret : BitVec 8}
    (h : c.run g = some (ret, g')) : ret = 0 := by
  rcases hg with hg | hg
  · rw [run_of_noinit hg] at h
    obtain ⟨⟨ok, g₁, command⟩, hsteps, hresult⟩ := Option.map_eq_some_iff.1 h
    rw [← (Prod.mk.inj hresult).1]
    cases ok with
    | false => rfl
    | true =>
      change ((g₁.stat &&& ~~~staNoinit) &&& 0x03).setWidth 8 = 0
      rw [(steps_stat hsteps).1]
      decide
  · rw [run_of_clear hg] at h
    exact (Prod.mk.inj (Option.some.inj h)).1.symm

/-! ### Whether the results are right -/

/-- What the result `ret` of the last one of some calls, and the variables after it, have to say:
`STA_NOINIT` is clear, in the result and in `Stat`, if and only if all steps have succeeded in one of
the calls; then further calls do nothing, and the fields of the card are from this call; and until
then `disk_read` does nothing. -/
structure Truthful (calls : List Call) (ret : BitVec 8) (g : Disk) : Prop where
  returned : ret &&& staNoinit.setWidth 8 = 0 ↔ (identified calls).isSome
  stat : g.stat &&& staNoinit = 0 ↔ (identified calls).isSome
  again : g.stat &&& staNoinit = 0 → ∀ junk junk', diskInitialize g 0 junk junk' = .done (0, g)
  notReady : g.stat &&& staNoinit ≠ 0 → ∀ buff sector count, count ≠ 0 →
    diskRead g 0 buff sector count = .done (.notrdy, [])
  fields : g.stat &&& staNoinit = 0 → identified calls = some g.sdcard

/-- The results of all calls are right. -/
def TellsTheTruth (calls : List Call) : Prop :=
  ∀ earlier c later, calls = earlier ++ c :: later → ∀ g ret g', after .start earlier = some g →
    c.run g = some (ret, g') → Truthful (earlier ++ [c]) ret g'

/-- Once the steps have all succeeded, the result is right. -/
theorem truthful_of_identified {calls : List Call} {g : Disk} (h : after .start calls = some g)
    (hid : (identified calls).isSome) : Truthful calls 0 g := by
  rcases after_spec rfl h with ⟨-, hnone⟩ | ⟨hstat, -, hcard⟩
  · rw [hnone] at hid
    cases hid
  · have hclear : g.stat &&& staNoinit = 0 := by
      rw [hstat]
      rfl
    constructor
    · simpa using hid
    · simpa [hclear] using hid
    · exact fun _ => diskInitialize_of_clear hstat
    · exact fun hset => absurd hclear hset
    · exact fun _ => hcard

/-- If the first call returns and none of its steps fails, they all succeed. -/
theorem identified_of_first {c : Call} {calls : List Call} {g : Disk}
    (h : after .start (c :: calls) = some g) (hc : c.outcome ≠ some none) :
    (identified (c :: calls)).isSome := by
  rw [after, run_of_noinit rfl] at h
  cases hsteps : c.steps with
  | none =>
    rw [hsteps] at h
    cases h
  | some r =>
    cases hok : r.1 with
    | false => exact absurd (by simp [Call.outcome, hsteps, hok]) hc
    | true => simp [identified, Call.outcome, hsteps, hok]

/-- **Results of calls.** The results of a sequence of calls are all right, exactly if no step of the
first call fails. -/
theorem tellsTheTruth_iff (calls : List Call) :
    TellsTheTruth calls ↔ ∀ c ∈ calls.head?, c.outcome ≠ some none := by
  constructor
  · intro htruth c hc hfail
    obtain ⟨later, rfl⟩ : ∃ later, calls = c :: later := by
      cases calls with
      | nil => cases hc
      | cons c' later => exact ⟨later, by rw [Option.some.inj hc]⟩
    -- the call returns 0 although a step has failed
    obtain ⟨⟨ok, g, command⟩, hsteps, hok⟩ := Option.map_eq_some_iff.1 hfail
    cases ok with
    | true => cases hok
    | false =>
      have hrun : c.run .start = some (0, g) := by
        rw [run_of_noinit rfl, hsteps]
        rfl
      have hnone : identified [c] = none := by
        simp [identified, hfail]
      have hreturned := (htruth [] c later rfl .start 0 g rfl hrun).returned.1 (by decide)
      rw [List.nil_append, hnone] at hreturned
      cases hreturned
  · rintro hfirst earlier c later rfl g ret g' hg hrun
    have hafter : after .start (earlier ++ [c]) = some g' := by
      rw [after_append, hg]
      simp [after, hrun]
    have hstat : g.stat = staNoinit ∨ g.stat = 0 :=
      (after_spec rfl hg).imp And.left And.left
    obtain rfl := run_eq_zero hstat hrun
    refine truthful_of_identified hafter ?_
    cases earlier with
    | nil => exact identified_of_first hafter (hfirst c rfl)
    | cons c₀ earlier => exact identified_of_first hafter (hfirst c₀ rfl)

/-- What a command reads that is accepted, with its responses. -/
def accepted (responses : List Word) : List Word :=
  [0, 0, 0, Irqstat.cc, Irqstat.cc, Irqstat.cc] ++ responses ++ [Irqstat.cc]

/-- A card of high capacity is identified, and the number of its blocks is computed. -/
example :
    Call.outcome
      { tape := [0, 0, 0, Prsstat.sdstb, 0, 0, 0, 0, 0, Prsstat.cins, 0] ++ accepted [] ++
          accepted [0x1AA] ++ accepted [0] ++ accepted [0x00300000] ++ accepted [0] ++
          accepted [0xC0300000] ++ [0, 0, Prsstat.sdstb, 0, 0] ++ [0, 0, 0, Prsstat.cins] ++
          accepted [0, 0, 0, 0] ++ accepted [0x12345678] ++ accepted [0, 0x3B3700, 0, 0x400000] ++
          accepted [0] ++ accepted [0] ++ accepted [0] ++ accepted [0] ++ [0, 0, 0]
        junk := default
        junk' := default } = some (some ⟨0x3B38 <<< 10, true, true, 0x12340000⟩) := by
  decide +kernel

/-- The controller comes up, but the response to `CMD0` has an index error. -/
def noAnswer : Call where
  tape := [0, 0, 0, Prsstat.sdstb, 0, 0, 0, 0, 0, Prsstat.cins, 0,
    0, 0, 0, Irqstat.cie ||| Irqstat.cc, 0]
  junk := default
  junk' := default

/-- The call returns 0 after its first command has failed. -/
theorem not_tellsTheTruth : ¬ TellsTheTruth [noAnswer] := by
  intro htruth
  have hrun : noAnswer.run .start = some (0, { Disk.start with init := true, card := .unknown }) := by
    decide +kernel
  have hnone : identified [noAnswer] = none := by
    decide +kernel
  have hreturned := (htruth [] noAnswer [] rfl .start _ _ rfl hrun).returned.1 (by decide)
  rw [List.nil_append, hnone] at hreturned
  cases hreturned

end Sdhc
