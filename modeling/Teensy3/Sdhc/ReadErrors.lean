import Mathlib.Tactic
import Teensy3.Lib.RegProgram
import Teensy3.Sdhc.Driver

/-!
# The errors of a data transfer

The controller reports the errors of a data transfer (`DTOE`, `DCE`, `DEBE`) in `SDHC_IRQSTAT`, a
register whose bits are cleared by writing ones.  The driver clears bits with `SDHC_IRQSTAT |= m`,
which reads the register and writes all that it has read; so a transaction that ends with
`SDHC_IRQSTAT |= SDHC_IRQSTAT_CC_MASK` also clears the errors of the transfer that have been reported
by then, and nothing looks at them before.  After the last word of a block no error is looked for
either.

* `Status`, `statusDevice`: the register, and whether an error has been raised in the transfer;
* `Unnoticed`: the points of the driver at which an error that is raised is lost;
* `safe_diskRead`: if no error is raised at these, a read that succeeds had none.
-/

namespace Sdhc

open RegProgram RegProgram.Prog Machine

/-- `SDHC_IRQSTAT`, whether the command has been issued, and whether an error of the data transfer
has been raised since. -/
structure Status where
  irqstat : Word
  issued : Bool
  raised : Bool
  deriving DecidableEq, Repr

/-- The controller.  It raises any bits at any moment, but errors of a data transfer only when there
is one; what the registers other than `SDHC_IRQSTAT` have is left open. -/
def statusDevice : Device Reg Word Word Status where
  answer r bus w :=
    match r with
    | .irqstat => w.irqstat
    | _ => bus
  onRead _ _ w := w
  onWrite r v w :=
    match r with
    | .irqstat => { w with irqstat := clear w.irqstat v }
    | .xfertyp => { w with issued := true }
    | _ => w
  onEvent bits w :=
    let bits := if w.issued then bits else bits &&& ~~~Irqstat.dataErrors
    { w with
      irqstat := w.irqstat ||| bits
      raised := w.raised || (bits &&& Irqstat.dataErrors != 0) }

/-- The points after the issue of the command at which an error is lost: up to the read of the `|=`
that ends the transaction, and after the check before the last word. -/
def Unnoticed : Point → Bool
  | .send .response | .send .removal | .send .timeout | .send .cmdrsp | .send .ccRead => true
  | .rcvr (.bren 1 _) | .rcvr (.data 1) | .rcvr .complete | .rcvr .reset => true
  | _ => false

/-- No error of the data transfer is raised at such a point. -/
def Noticed (p : Point) (_ : Status) : Step Word Word → Prop
  | .cpu _ => True
  | .event bits => Unnoticed p = true → bits &&& Irqstat.dataErrors = 0

/-! ### Assertions -/

/-- The command is not issued; the errors in the register are those of `v`. -/
def Before (v : Word) (w : Status) : Prop :=
  w.issued = false ∧ w.raised = false ∧ w.irqstat &&& Irqstat.dataErrors = v &&& Irqstat.dataErrors

/-- No error has been raised, and none is in the register. -/
def Clean (w : Status) : Prop := w.raised = false ∧ w.irqstat &&& Irqstat.dataErrors = 0

/-- If an error has been raised, there is one in the register. -/
def Pending (w : Status) : Prop := w.raised = true → w.irqstat &&& Irqstat.dataErrors ≠ 0

/-- In every run in which errors are noticed, `Q` holds of the result; and where the driver waits
without a limit no error has been raised. -/
abbrev Reports {α : Type} (Q : α → Status → Prop) : Driver α → Status → Prop :=
  Safe statusDevice Noticed (fun _ _ => True) (fun _ _ _ w => w.raised = false) Q

theorem Before.event {v : Word} {w : Status} (h : Before v w) (bits : Word) :
    Before v (statusDevice.onEvent bits w) := by
  obtain ⟨hissued, hraised, herr⟩ := h
  refine ⟨hissued, ?_, ?_⟩
  · have hnone : (bits &&& ~~~Irqstat.dataErrors) &&& Irqstat.dataErrors = 0 := by
      rw [BitVec.and_assoc]
      simp
    simp [statusDevice, hissued, hraised, hnone]
  · simp only [statusDevice, hissued, Bool.false_eq_true, if_false]
    rw [or_and_not_and, herr]

/-- Other bits than those of the errors. -/
theorem masked_eq_zero {w : Status} {bits : Word} (hbits : bits &&& Irqstat.dataErrors = 0) :
    (if w.issued then bits else bits &&& ~~~Irqstat.dataErrors) &&& Irqstat.dataErrors = 0 := by
  split
  · exact hbits
  · rw [BitVec.and_assoc]
    simp

theorem raised_event {w : Status} {bits : Word} (hbits : bits &&& Irqstat.dataErrors = 0) :
    (statusDevice.onEvent bits w).raised = w.raised := by
  simp only [statusDevice, masked_eq_zero hbits]
  simp

theorem Clean.event {w : Status} (h : Clean w) {bits : Word}
    (hbits : bits &&& Irqstat.dataErrors = 0) : Clean (statusDevice.onEvent bits w) := by
  constructor
  · rw [raised_event hbits, h.1]
  · simp only [statusDevice]
    rw [or_and_of_and_eq_zero (masked_eq_zero hbits), h.2]

theorem Pending.event {w : Status} (h : Pending w) (bits : Word) :
    Pending (statusDevice.onEvent bits w) := by
  intro hraised hzero
  simp only [statusDevice] at hraised hzero
  obtain ⟨hold, hnew⟩ := or_and_eq_zero.1 hzero
  rw [hnew] at hraised
  exact h (by simpa using hraised) hold

theorem Clean.pending {w : Status} (h : Clean w) : Pending w := by
  intro hraised
  rw [h.1] at hraised
  cases hraised

section Rules

variable {α : Type} {Q : α → Status → Prop} {p : Point} {r : Reg} {w : Status}

/-- Before the issue, whatever is raised, a read keeps what is known. -/
theorem Before.read {v : Word} (h : Before v w) {k : Word → Driver α}
    (hk : ∀ w x, Before v w → Reports Q (k x) w) : Reports Q (.read p r k) w :=
  safe_read (Before v) h (fun _ e h _ => h.event e) (fun _ _ => trivial) fun w _ h _ => hk w _ h

theorem Before.write {v x : Word} (h : Before v w) {k : Driver α}
    (hk : ∀ w, Before v w → Reports Q k (statusDevice.onWrite r x w)) :
    Reports Q (.write p r x k) w :=
  safe_write (Before v) h (fun _ e h _ => h.event e) (fun _ _ => trivial) fun w _ h _ => hk w h

/-- So does a read up to the end of the transaction, where no error is raised. -/
theorem Clean.read (hp : Unnoticed p = true) (h : Clean w) {k : Word → Driver α}
    (hk : ∀ w, Clean w → ∀ bus, Reports Q (k (statusDevice.answer r bus w)) w) :
    Reports Q (.read p r k) w :=
  safe_read Clean h (fun _ _ h hC => h.event (hC hp)) (fun _ _ => trivial)
    fun w bus h _ => hk w h bus

end Rules

/-! ### The transaction -/

/-- The command is issued with no error in the register. -/
theorem safe_issue (c : Command) {w : Status} (hissued : w.issued = false)
    (hraised : w.raised = false) :
    Reports (fun _ w => Clean w) (issue c) w := by
  simp only [issue, orIrqstat, bind_eq, update_bind, await_bind, store_bind]
  refine safe_read (fun w => Before w.irqstat w) ⟨hissued, hraised, rfl⟩
    (fun w e h _ => ⟨(h.event e).1, (h.event e).2.1, rfl⟩) (fun _ _ => trivial)
    fun w _ h _ => ?_
  -- from the read to the write of the `|=`
  refine h.write fun w' h' => ?_
  have hzero : Before 0 (statusDevice.onWrite .irqstat (w.irqstat ||| Irqstat.crm) w') := by
    refine ⟨h'.1, h'.2.1, ?_⟩
    exact (clear_or_and h'.2.2 _).trans BitVec.zero_and.symm
  refine safe_poll (Before 0) hzero (fun w e h _ => h.event e) (fun w h => h.2.1)
    (fun w _ h _ _ => h) fun w _ h _ _ => ?_
  refine Before.write h fun w h => ?_
  refine Before.read h fun w _ h => ?_
  refine Before.write h fun w h => safe_bind ?_
  have hend : ∀ w, Before 0 w → Reports (fun _ w => Clean w)
      (.write (.send .setup) .dsaddr 0 (store (.send .issue) .xfertyp c.xfertyp)) w := by
    intro w h
    refine h.write fun w h => ?_
    refine Before.write h fun w h => ?_
    exact ⟨h.2.1, h.2.2.trans BitVec.zero_and⟩
  unfold setBlkcnt
  split
  · refine Before.read h fun w _ h => ?_
    exact h.write fun w h => hend w h
  · exact hend w h

/-- Where the outcome is an error anyway, nothing has to be kept. -/
theorem safe_update_of {p q : Point} {f : Word → Word} {α : Type} {a : α} {Q : α → Status → Prop}
    (hQ : ∀ w, Q a w) (w : Status) :
    Reports Q ((update p q .irqstat f).bind fun _ => .done a) w := by
  refine safe_read (fun _ => True) trivial (fun _ _ _ _ => trivial)
    (fun _ _ => trivial) fun w _ _ _ => ?_
  exact safe_write (fun _ => True) trivial (fun _ _ _ _ => trivial)
    (fun _ _ => trivial) fun w _ _ _ => hQ _

/-- A transaction that succeeds leaves every error of the transfer in the register. -/
theorem safe_complete (c : Command) {w : Status} (h : Clean w) :
    Reports (fun r w => r.1 = 0 → Pending w) (complete c) w := by
  simp only [complete, orIrqstat, bind_eq, pure_eq, await_bind, load_bind]
  refine safe_poll Clean h (fun w e h hC => h.event (hC rfl)) (fun w h => h.1) (fun w _ h _ _ => h)
    fun w _ h _ _ => ?_
  split
  · exact safe_update_of (fun w hval => by cases hval) _
  refine Clean.read rfl h fun w h bus => ?_
  split
  · exact safe_update_of (fun w hval => by cases hval) _
  refine Clean.read rfl h fun w h bus => ?_
  split
  · exact safe_update_of (fun w hval => by cases hval) _
  refine safe_bind ((safe_getResponse Clean (fun w e h hC => h.event (hC rfl)) (fun _ _ => trivial)
    (fun w _ _ h => h) c h).mono fun response w h => ?_)
  refine Clean.read rfl h fun w h bus => ?_
  -- what is raised from here on is not in the value that is written
  refine safe_write Pending h.pending (fun w e h _ => h.event e) (fun _ _ => trivial)
    fun w' _ h' _ => ?_
  intro _ hraised
  have hwrite : (w.irqstat ||| Irqstat.cc) &&& Irqstat.dataErrors = 0#32 :=
    or_and_eq_zero.2 ⟨h.2, by decide⟩
  exact fun hzero => h' hraised ((clear_and_of_and_eq_zero hwrite).symm.trans hzero)

theorem safe_sendCommand (c : Command) {w : Status} (hissued : w.issued = false)
    (hraised : w.raised = false) :
    Reports (fun r w => r.1 = 0 → Pending w) (sendCommand c) w := by
  simp only [sendCommand, bind_eq, pure_eq]
  split
  · intro hval
    cases hval
  · exact safe_bind ((safe_issue c hissued hraised).mono fun _ w h => safe_complete c h)

/-! ### The block -/

/-- Between the check before word `j` and the next one: for the last word there is none. -/
def Checked (j : ℕ) (w : Status) : Prop := Pending w ∧ (j = 1 → w.raised = false)

theorem Checked.event {j : ℕ} {w : Status} (h : Checked j w) {bits : Word}
    (hbits : j = 1 → bits &&& Irqstat.dataErrors = 0) : Checked j (statusDevice.onEvent bits w) := by
  refine ⟨h.1.event bits, fun hj => ?_⟩
  rw [raised_event (hbits hj), h.2 hj]

/-- A block whose words are all read without an error had none so far. -/
theorem safe_rcvrWords {j : ℕ} {buff : List Word} {w : Status} (hw : Pending w)
    (hlast : j = 0 → w.raised = false) :
    Reports (fun r w => r.1 = true → w.raised = false)
      (rcvrWords j buff) w := by
  induction j generalizing buff w with
  | zero => exact fun _ => hlast rfl
  | succ j ih =>
    simp only [rcvrWords, bind_eq, pure_eq, load_bind]
    refine safe_read Pending hw (fun w e h _ => h.event e) (fun _ _ => trivial)
      fun w _ h _ => ?_
    split
    · exact safe_update_of (fun w hval => by cases hval) _
    next hnone =>
    have hraised : w.raised = false := by
      by_contra hr
      exact hnone (h (by simpa using hr))
    have hev : ∀ (p : Point) (w : Status) e, (j + 1 = 1 → Unnoticed p = true) → Checked (j + 1) w →
        Noticed p w (.event e) → Checked (j + 1) (statusDevice.onEvent e w) :=
      fun p w e hp h hC => h.event fun hj => hC (hp hj)
    refine safe_bind (safe_awaitFor (Checked (j + 1)) (fun left w e h hC => hev _ w e ?_ h hC)
      (fun _ _ _ => trivial) ?_ (fun _ w _ h _ _ => h) ?_ _ ⟨h, fun _ => hraised⟩)
    · intro hj
      obtain rfl : j = 0 := by omega
      rfl
    · intro _ w _ h _ _
      refine safe_read (Checked (j + 1)) h (fun w e h hC => hev _ w e ?_ h hC)
        (fun _ _ => trivial) fun w _ h _ => ?_
      · intro hj
        obtain rfl : j = 0 := by omega
        rfl
      · exact ih h.1 fun hj => h.2 (by omega)
    · intro w _ h _ _ hval
      cases hval

/-- The same for the loop over the blocks. -/
theorem safe_rcvrBlocks {fuel bytes : ℕ} (hfuel : bytes ≤ fuel) {buff : List Word} {w : Status}
    (hw : Pending w) (hlast : bytes = 0 → w.raised = false) :
    Reports (fun r w => r.1 = true → w.raised = false)
      (rcvrBlocks fuel bytes buff) w := by
  induction fuel generalizing bytes buff w with
  | zero => exact fun _ => hlast (by omega)
  | succ fuel ih =>
    simp only [rcvrBlocks, bind_eq, pure_eq, await_bind, store_bind]
    split
    · next hbytes => exact fun _ => hlast hbytes
    next hbytes =>
    refine safe_bind (safe_awaitFor Pending (fun left w e h hC => h.event e)
      (fun _ _ _ => trivial) ?_ (fun _ w _ h _ _ => h) ?_ _ hw)
    · intro _ w _ h _ _
      have hwords : ((if 512 < bytes then 512 else bytes) + 3) >>> 2 ≠ 0 := by
        rw [Nat.shiftRight_eq_div_pow]
        split <;> omega
      refine safe_bind ((safe_rcvrWords h fun h0 => absurd h0 hwords).mono fun r w h => ?_)
      obtain ⟨ok, buff⟩ := r
      cases ok with
      | false => exact fun hval => by cases hval
      | true =>
        have hnone : ∀ (p : Point) (w : Status) e, Unnoticed p = true → w.raised = false →
            Noticed p w (.event e) → (statusDevice.onEvent e w).raised = false :=
          fun p w e hp h hC => (raised_event (hC hp)).trans h
        refine safe_poll (fun w => w.raised = false) (h rfl) (fun w e h hC => hnone _ w e rfl h hC)
          (fun w h => h) (fun w _ h _ _ => h) fun w _ h _ _ => ?_
        refine safe_write (fun w => w.raised = false) h (fun w e h hC => hnone _ w e rfl h hC)
          (fun _ _ => trivial) fun w _ h _ => ?_
        refine ih (by omega) (fun hr => ?_) fun _ => h
        exact absurd (h.symm.trans hr) (by simp)
    · intro w _ h _ _ hval
      cases hval

/-! ### The call -/

/-- A call that succeeds had no error. -/
theorem safe_diskRead {g : Disk} (hg : g.Ready) (sector : Word) {w : Status}
    (hissued : w.issued = false) (hraised : w.raised = false) :
    Reports
      (fun r w => (r.1 = .ok ∨ r.1 = .error) ∧ (r.1 = .ok → w.raised = false))
      (diskRead g 0 true sector 1) w := by
  rw [diskRead_one hg]
  refine safe_bind ((safe_sendCommand _ hissued hraised).mono fun r w h => ?_)
  split
  · next hval =>
    have hfull : ¬ 512 = 0 := by decide
    refine safe_bind ((safe_rcvrBlocks le_rfl (h hval) fun h0 => absurd h0 hfull).mono
      fun r w h => ?_)
    obtain ⟨ok, ws⟩ := r
    cases ok with
    | false => exact ⟨.inr rfl, fun hval => by cases hval⟩
    | true => exact ⟨.inl rfl, fun _ => h rfl⟩
  · exact ⟨.inr rfl, fun hval => by cases hval⟩

/-- Before the call, with any bits in the register. -/
def Status.start (irqstat : Word) : Status := ⟨irqstat, false, false⟩

/-- The call `disk_read(0, buff, sector, 1)` in an endless run. -/
def readRun (g : Disk) (sector irqstat : Word) (inp : ℕ → Step Word Word) :
    ℕ → Driver (DResult × List Word) × Status :=
  trace (step statusDevice) (diskRead g 0 true sector 1, Status.start irqstat) inp

theorem raised_onEvent {w : Status} (h : w.raised = true) (bits : Word) :
    (statusDevice.onEvent bits w).raised = true := by
  simp [statusDevice, h]

theorem raised_onWrite {w : Status} (h : w.raised = true) (r : Reg) (v : Word) :
    (statusDevice.onWrite r v w).raised = true := by
  cases r <;> exact h

/-- An error that has been raised stays known. -/
theorem raised_step {α : Type} {c : Driver α × Status} (h : c.2.raised = true)
    (e : Step Word Word) : (step statusDevice c e).2.raised = true := by
  obtain ⟨x, w⟩ := c
  cases e with
  | cpu bus =>
    cases x with
    | done a => exact h
    | read p r k => exact h
    | write p r v k => exact raised_onWrite h r v
    | poll p r stop k => exact h
  | event bits =>
    cases x with
    | done a => exact h
    | _ => exact raised_onEvent h bits

/-- **Errors of a read.** In every run in which no error of the data transfer is raised while the
driver does not look for one any more, a call that returns `RES_OK` had none; and if one is raised,
and the driver keeps running, the call returns `RES_ERROR`. -/
theorem read_reports_errors (g : Disk) (sector irqstat : Word) (inp : ℕ → Step Word Word)
    (hg : g.Ready) (hnoticed : ∀ n, Meets Noticed (readRun g sector irqstat inp n) (inp n)) :
    (∀ n r ws, (readRun g sector irqstat inp n).1 = .done (r, ws) → (r = .ok ∨ r = .error) ∧
      (r = .ok → (readRun g sector irqstat inp n).2.raised = false)) ∧
    ∀ n, (readRun g sector irqstat inp n).2.raised = true →
      (∀ k, ∃ m, k ≤ m ∧ ∃ bus, inp m = .cpu bus) →
      ∃ m, n ≤ m ∧ ∃ ws, (readRun g sector irqstat inp m).1 = .done (.error, ws) := by
  have hsafe := safe_trace (c := (diskRead g 0 true sector 1, Status.start irqstat))
    (safe_diskRead hg sector rfl rfl) inp hnoticed
  have hdone : ∀ n r ws, (readRun g sector irqstat inp n).1 = .done (r, ws) →
      (r = .ok ∨ r = .error) ∧ (r = .ok → (readRun g sector irqstat inp n).2.raised = false) := by
    intro n r ws hn
    have hn' := hsafe n
    rw [show (trace (step statusDevice) _ inp n).1 = .done (r, ws) from hn] at hn'
    exact hn'
  refine ⟨hdone, fun n hraised hcpu => ?_⟩
  have hstays : ∀ m, n ≤ m → (readRun g sector irqstat inp m).2.raised = true := by
    intro m hm
    induction m, hm using Nat.le_induction with
    | base => exact hraised
    | succ m _ ih => exact raised_step ih (inp m)
  -- while an error is pending the driver has no wait without a limit before it
  obtain ⟨m, hm, ⟨r, ws⟩, hreturned⟩ := trace_done hcpu n fun m hm p r stop k hpoll => by
    have hnone := (hsafe m).at_poll hpoll
    exact absurd ((hstays m hm).symm.trans hnone) (by simp)
  refine ⟨m, hm, ws, ?_⟩
  obtain ⟨hr, hok⟩ := hdone m r ws hreturned
  rcases hr with rfl | rfl
  · exact absurd ((hstays m hm).symm.trans (hok rfl)) (by simp)
  · exact hreturned

/-- The card is ready at once and the response comes, but a CRC error is found in the block. -/
theorem read_reports_crc_error :
    ∃ m, 18 ≤ m ∧ ∃ ws, (readRun anyDisk 16512 0 (fun n => if n = 10 then .event Irqstat.cc
      else if n = 17 then .event Irqstat.dce else .cpu Prsstat.bren) m).1 = .done (.error, ws) := by
  refine (read_reports_errors anyDisk 16512 0 _ ⟨by decide, rfl⟩ ?_).2 18 (by decide +kernel) ?_
  · intro n p hp
    by_cases h10 : n = 10
    · subst h10
      exact fun _ => by decide
    by_cases h17 : n = 17
    · subst h17
      have hpoint : (readRun anyDisk 16512 0 (fun n => if n = 10 then .event Irqstat.cc
          else if n = 17 then .event Irqstat.dce else .cpu Prsstat.bren) 17).1.point =
          some (.rcvr (.dla maxTries)) := by decide +kernel
      obtain rfl := Option.some.inj (hp.symm.trans hpoint)
      exact fun hlost => by cases hlost
    simp [h10, h17, Noticed]
  · intro k
    refine ⟨k + 18, by omega, Prsstat.bren, ?_⟩
    rw [if_neg (by omega), if_neg (by omega)]

/-- The CRC error is raised while the driver waits for the end of the transaction, and the call
returns `RES_OK`. -/
theorem read_loses_crc_error :
    ∃ inp : ℕ → Step Word Word, ∃ n,
      (readRun anyDisk 16512 0 inp n).1.result.map Prod.fst = some .ok ∧
      (readRun anyDisk 16512 0 inp n).2.raised = true := by
  refine ⟨fun n => if n = 10 then .event Irqstat.cc else if n = 12 then .event Irqstat.dce
    else if n = 20 then .event Irqstat.tc else .cpu Prsstat.bren, 420, ?_⟩
  decide +kernel

/-- The same for an error of the last word, that is raised when the word has been read. -/
example :
    let inp : ℕ → Step Word Word := fun n => if n = 10 then .event Irqstat.cc
      else if n = 402 then .event (Irqstat.dce ||| Irqstat.tc) else .cpu Prsstat.bren
    (readRun anyDisk 16512 0 inp 405).1.result.map Prod.fst = some .ok ∧
      (readRun anyDisk 16512 0 inp 405).2.raised = true := by
  decide +kernel

end Sdhc
