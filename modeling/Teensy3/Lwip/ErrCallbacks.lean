import Teensy3.Lib.Run
import Teensy3.Lwip.Pcb
import Teensy3.Lwip.Tcptx

/-!
# Error callbacks of the TCP sketches

`tcperr_callback` and `listen_err_callback` store the error code through `arg`.  Whether that is
harmless is decided in other places: by `tcp_arg`, by what `tcp_err` is applied to, and by how
long the variable behind `arg` lives.  Three programs are followed here through every order of
connects, data, closes and resets by any number of peers:

* the servers `tcp_echosrv` (`echosrv.ino.tmp`) and `websrv` (`websrv.ino.tmp`), which do the same
  things with their pcbs, except that the web server also closes from its `sent_callback`;
* `tcprx` of `lwiptst.ino`;
* `tcptx` of `lwiptst.ino`, as modelled in `Tcptx`.
-/

namespace Lwip

open Machine

/-! ### The servers -/

inductive ServerSketch
  | echosrv
  | websrv
  deriving DecidableEq

/-- A connection of a server: its pcb and which callbacks are registered on it. -/
structure Conn where
  pcb : Pcb
  accepted : Bool
  recvCb : Bool
  sentCb : Bool
  closing : Bool
  deriving DecidableEq

structure Server where
  /-- The static `pcbl`, `none` before `setup`. -/
  pcbl : Option Pcb
  conns : List Conn
  deriving DecidableEq

def serverInit : Server := ⟨none, []⟩

/-- `tcp_echosrv` and `websrv`: `tcp_new`, `tcp_listen`, and
`tcp_err(pcbl, listen_err_callback)`. -/
def Server.setup (s : Server) : Server :=
  match s.pcbl with
  | some _ => s
  | none => { s with pcbl := some (tcpErr (tcpListen tcpNew) (some .listenErrCallback)) }

/-- `accept_callback` with `err` zero. -/
def Conn.accept (c : Conn) : Conn :=
  { c with accepted := true, recvCb := true, pcb := tcpErr c.pcb (some .tcperrCallback) }

/-- `echo_close` and `web_close`: unregister the callbacks, then `tcp_close`. -/
def Conn.close (c : Conn) : Conn :=
  { c with recvCb := false, sentCb := false, closing := true, pcb := tcpErr c.pcb none }

/-- Deallocation by lwIP. -/
def Conn.free (c : Conn) : Conn := { c with pcb := c.pcb.free }

/-- What the peers and lwIP may do. -/
inductive ServerEvent
  /-- The sketch is started. -/
  | setup
  /-- A SYN comes in at the listening port. -/
  | syn
  /-- The handshake of connection `i` is complete, and `accept_callback` is called with `err`. -/
  | accept (i : ℕ) (err : Bool)
  /-- Data for connection `i`: `recv_callback`. -/
  | data (i : ℕ)
  /-- Connection `i` is closed by the peer: `recv_callback` without a pbuf. -/
  | fin (i : ℕ)
  /-- Data sent on connection `i` is acknowledged; the send buffer is empty again, or not. -/
  | sent (i : ℕ) (empty : Bool)
  /-- Connection `i` is reset or aborted. -/
  | reset (i : ℕ) (f : Fatal)
  /-- lwIP is done with the closing connection `i`. -/
  | freed (i : ℕ)

/-- Do something to connection `i`, if it exists and its pcb is live. -/
def Server.onConn (s : Server) (i : ℕ) (g : Conn → Conn) : Server :=
  { s with conns := s.conns.modify i fun c => if c.pcb.live then g c else c }

def serverStep (k : ServerSketch) (s : Server) : ServerEvent → Server
  | .setup => s.setup
  | .syn =>
    match s.pcbl with
    | none => s
    | some l => { s with conns := s.conns ++ [⟨tcpListenInput l, false, false, false, false⟩] }
  | .accept i err =>
    -- after a result other than `ERR_OK` lwIP aborts the connection
    s.onConn i fun c => if c.accepted then c else if err then c.free else c.accept
  | .data i =>
    s.onConn i fun c => if c.recvCb && k = .websrv then { c with sentCb := true } else c
  | .fin i => s.onConn i fun c => if c.recvCb then c.close else c
  | .sent i empty => s.onConn i fun c => if c.sentCb && empty then c.close else c
  | .reset i _ => s.onConn i Conn.free
  | .freed i => s.onConn i fun c => if c.closing then c.free else c

def Server.world (s : Server) : World where
  pcbs := s.pcbl.toList ++ s.conns.map Conn.pcb
  connectedAlive := false

/-- `accept_callback` is called without an error for a live connection. -/
def Accepts (s : Server) : ServerEvent → Prop
  | .accept i err =>
    err = false ∧ ∃ c, s.conns[i]? = some c ∧ c.pcb.live = true ∧ c.accepted = false
  | _ => False

/-! ### What can happen to a pcb -/

/-- What one step does to the pcb of a connection: nothing, deallocation, `tcp_err(p, NULL)`, or,
if `reg` holds, the registration of `tcperr_callback`. -/
inductive Touch (reg : Prop) (p : Pcb) : Pcb → Prop
  | keep : Touch reg p p
  | free : Touch reg p p.free
  | unregister : Touch reg p (tcpErr p none)
  | register (h : reg) : Touch reg p (tcpErr p (some .tcperrCallback))

theorem Touch.kind_eq {reg : Prop} {p q : Pcb} (h : Touch reg p q) : q.kind = p.kind := by
  cases h <;> simp [Pcb.free]

theorem Touch.callbackArg_eq {reg : Prop} {p q : Pcb} (h : Touch reg p q) :
    q.callbackArg = p.callbackArg := by
  cases h <;> simp [Pcb.free]

/-- No live pcb of the list has an error callback. -/
def Quiet (pcbs : List Pcb) : Prop := ∀ p ∈ pcbs, p.live = true → p.errf = none

/-- Without arguments the only safe error callback is none at all. -/
theorem argsAlive_iff_quiet {w : World} (h : ∀ p ∈ w.pcbs, p.callbackArg = .null) :
    w.ArgsAlive ↔ Quiet w.pcbs := by
  constructor
  · intro hw p hp hl
    by_contra hne
    have := hw p hp hl hne
    rw [h p hp] at this
    exact this
  · intro hq p hp hl hne
    exact absurd (hq p hp hl) hne

theorem Touch.quiet {p q : Pcb} (h : Touch False p q) (hk : p.kind = .connection)
    (hp : p.live = true → p.errf = none) (hl : q.live = true) : q.errf = none := by
  cases h with
  | keep => exact hp hl
  | free => simp [Pcb.free] at hl
  | unregister => exact tcpErr_errf hk none
  | register hreg => exact hreg.elim

theorem mem_modify {α : Type*} {l : List α} {i : ℕ} {g : α → α} {x : α} (h : x ∈ l.modify i g) :
    x ∈ l ∨ ∃ y, l[i]? = some y ∧ x = g y := by
  obtain ⟨j, hj⟩ := List.mem_iff_getElem?.1 h
  rw [List.getElem?_modify] at hj
  obtain ⟨y, hy, hxy⟩ := Option.map_eq_some_iff.1 hj
  by_cases hij : i = j
  · subst hij
    exact Or.inr ⟨y, hy, by simpa using hxy.symm⟩
  · refine Or.inl (List.mem_of_getElem? (i := j) ?_)
    rw [hy]
    simpa [hij] using hxy

/-! ### The servers, step by step -/

/-- The connections after a step are those before it, each touched, and at most a new one. -/
theorem serverStep_conns (k : ServerSketch) (s : Server) (e : ServerEvent) {c' : Conn}
    (hc' : c' ∈ (serverStep k s e).conns) :
    (∃ c ∈ s.conns, Touch (Accepts s e) c.pcb c'.pcb) ∨
      ∃ l, s.pcbl = some l ∧ c'.pcb = tcpListenInput l := by
  -- the common part: a step that changes one connection by `g`
  have key : ∀ i (g : Conn → Conn),
      (∀ c, s.conns[i]? = some c → c.pcb.live = true → Touch (Accepts s e) c.pcb (g c).pcb) →
      c' ∈ (s.onConn i g).conns → ∃ c ∈ s.conns, Touch (Accepts s e) c.pcb c'.pcb := by
    intro i g hg hmem
    rcases mem_modify hmem with hold | ⟨c, hc, rfl⟩
    · exact ⟨c', hold, .keep⟩
    · refine ⟨c, List.mem_of_getElem? hc, ?_⟩
      split_ifs with hl
      · exact hg c hc hl
      · exact .keep
  cases e with
  | setup =>
    left
    refine ⟨c', ?_, .keep⟩
    simp only [serverStep, Server.setup] at hc'
    split at hc' <;> exact hc'
  | syn =>
    simp only [serverStep] at hc'
    cases hl : s.pcbl with
    | none =>
      rw [hl] at hc'
      exact Or.inl ⟨c', hc', .keep⟩
    | some l =>
      rw [hl] at hc'
      rcases List.mem_append.1 hc' with hold | hnew
      · exact Or.inl ⟨c', hold, .keep⟩
      · rw [List.mem_singleton.1 hnew]
        exact Or.inr ⟨l, rfl, rfl⟩
  | accept i err =>
    refine Or.inl (key i _ (fun c hc hl => ?_) hc')
    cases ha : c.accepted with
    | true => exact .keep
    | false =>
      cases err with
      | true => exact .free
      | false => exact .register ⟨rfl, c, hc, hl, ha⟩
  | data i =>
    refine Or.inl (key i _ (fun c _ _ => ?_) hc')
    split_ifs <;> exact .keep
  | fin i =>
    refine Or.inl (key i _ (fun c _ _ => ?_) hc')
    split_ifs
    · exact .unregister
    · exact .keep
  | sent i empty =>
    refine Or.inl (key i _ (fun c _ _ => ?_) hc')
    split_ifs
    · exact .unregister
    · exact .keep
  | reset i f => exact Or.inl (key i _ (fun c _ _ => .free) hc')
  | freed i =>
    refine Or.inl (key i _ (fun c _ _ => ?_) hc')
    split_ifs
    · exact .free
    · exact .keep

/-- The listening pcb of a server, once there is one. -/
def serverPcbl : Pcb := tcpErr (tcpListen tcpNew) (some .listenErrCallback)

theorem serverStep_pcbl (k : ServerSketch) (s : Server) (e : ServerEvent) :
    (serverStep k s e).pcbl = s.pcbl ∨ (serverStep k s e).pcbl = some serverPcbl := by
  cases e with
  | setup =>
    simp only [serverStep, Server.setup]
    cases hl : s.pcbl with
    | none => exact Or.inr rfl
    | some l => exact Or.inl hl
  | syn =>
    simp only [serverStep]
    cases hl : s.pcbl with
    | none => exact Or.inl hl
    | some l => exact Or.inl rfl
  | _ => exact Or.inl rfl

/-- What holds of a server in every state. -/
structure ServerInv (s : Server) : Prop where
  pcbl_eq : ∀ l, s.pcbl = some l → l = serverPcbl
  conn : ∀ c ∈ s.conns, s.pcbl ≠ none ∧ c.pcb.kind = .connection ∧ c.pcb.callbackArg = .null

theorem serverInv_init : ServerInv serverInit := by
  refine ⟨fun l h => ?_, fun c hc => ?_⟩
  · simp [serverInit] at h
  · simp [serverInit] at hc

theorem serverInv_step (k : ServerSketch) (s : Server) (e : ServerEvent) (hs : ServerInv s) :
    ServerInv (serverStep k s e) := by
  have hpcbl := serverStep_pcbl k s e
  refine ⟨fun l hl => ?_, fun c' hc' => ?_⟩
  · rcases hpcbl with h | h
    · exact hs.pcbl_eq l (h ▸ hl)
    · exact Option.some.inj (hl.symm.trans h)
  · have hsome : s.pcbl ≠ none → (serverStep k s e).pcbl ≠ none := by
      intro hne
      rcases hpcbl with h | h <;> simp [h, hne]
    rcases serverStep_conns k s e hc' with ⟨c, hc, ht⟩ | ⟨l, hl, hpcb⟩
    · obtain ⟨hne, hk, ha⟩ := hs.conn c hc
      exact ⟨hsome hne, ht.kind_eq.trans hk, ht.callbackArg_eq.trans ha⟩
    · rw [hpcb]
      refine ⟨hsome (by simp [hl]), rfl, ?_⟩
      rw [hs.pcbl_eq l hl]
      rfl

theorem ServerInv.arg_null {s : Server} (hs : ServerInv s) :
    ∀ p ∈ s.world.pcbs, p.callbackArg = .null := by
  intro p hp
  rcases List.mem_append.1 hp with h | h
  · rw [hs.pcbl_eq p (Option.mem_toList.1 h)]
    rfl
  · obtain ⟨c, hc, rfl⟩ := List.mem_map.1 h
    exact (hs.conn c hc).2.2

/-- A server keeps its callbacks in order exactly as long as it accepts nothing. -/
theorem server_argsAlive_step (k : ServerSketch) (s : Server) (e : ServerEvent) (hs : ServerInv s)
    (h : s.world.ArgsAlive) : (serverStep k s e).world.ArgsAlive ↔ ¬ Accepts s e := by
  rw [argsAlive_iff_quiet hs.arg_null] at h
  rw [argsAlive_iff_quiet (serverInv_step k s e hs).arg_null]
  constructor
  · rintro hq hacc
    cases e with
    | accept i err =>
      obtain ⟨rfl, c, hc, hl, ha⟩ := hacc
      have hk := (hs.conn c (List.mem_of_getElem? hc)).2.1
      have hmem : c.accept.pcb ∈ (serverStep k s (.accept i false)).world.pcbs := by
        refine List.mem_append_right _ (List.mem_map.2 ⟨c.accept, ?_, rfl⟩)
        refine List.mem_of_getElem? (i := i) ?_
        simp [serverStep, Server.onConn, hc, hl, ha]
      have := hq _ hmem (by simpa [Conn.accept] using hl)
      rw [Conn.accept, tcpErr_errf hk] at this
      exact absurd this (by simp)
    | _ => exact hacc
  · intro hacc p hp hl
    rcases List.mem_append.1 hp with hp | hp
    · rw [(serverInv_step k s e hs).pcbl_eq p (Option.mem_toList.1 hp)]
      rfl
    · obtain ⟨c', hc', rfl⟩ := List.mem_map.1 hp
      rcases serverStep_conns k s e hc' with ⟨c, hc, ht⟩ | ⟨l, -, hpcb⟩
      · rw [eq_false hacc] at ht
        refine ht.quiet (hs.conn c hc).2.1 (h c.pcb ?_) hl
        exact List.mem_append_right _ (List.mem_map_of_mem hc)
      · rw [hpcb]
        rfl

/-- A server breaks the rule about `tcp_err` in `setup`, and nothing else happens before. -/
theorem server_safe_step (k : ServerSketch) (s : Server) (e : ServerEvent) (hs : ServerInv s)
    (h : s.world.Safe) : (serverStep k s e).world.Safe ↔ e ≠ .setup := by
  have hnone : s.pcbl = none := by
    cases hl : s.pcbl with
    | none => rfl
    | some l =>
      -- the listening pcb of a server has had `tcp_err` applied to it
      have hmem : l ∈ s.world.pcbs := by simp [Server.world, hl]
      have := h.1 l hmem (by rw [hs.pcbl_eq l hl]; decide)
      rw [hs.pcbl_eq l hl] at this
      exact absurd this (by decide)
  have hconns : s.conns = [] := by
    refine List.eq_nil_iff_forall_not_mem.2 fun c hc => ?_
    exact (hs.conn c hc).1 hnone
  obtain ⟨pcbl, conns⟩ := s
  subst hnone hconns
  constructor
  · rintro hsafe rfl
    have := hsafe.1 serverPcbl (by simp [serverStep, Server.setup, Server.world, serverPcbl])
      (by decide)
    exact absurd this (by decide)
  · intro hne
    have hsame : serverStep k ⟨none, []⟩ e = ⟨none, []⟩ := by
      cases e with
      | setup => exact absurd rfl hne
      | syn => rfl
      | _ => simp [serverStep, Server.onConn]
    rw [hsame]
    exact h

/-! ### `tcptx` -/

/-- The variable `connected` lives as long as the call of `tcptx`. -/
def Tcptx.State.world (s : Tcptx.State) : World where
  pcbs := [s.pcb]
  connectedAlive := decide (s.pc ≠ .returned)

/-- `tcptx` is about to return through `tcp_close` while its connection is alive. -/
def ClosesLive (s : Tcptx.State) : Prop := s.pc = .close ∧ s.pcb.live = true

/-- What holds of `tcptx` in every state: its callback and its argument stay as they were set,
and an error code in `connected` means that the pcb is gone. -/
structure TcptxInv (s : Tcptx.State) : Prop where
  kind : s.pcb.kind = .connection
  errf : s.pcb.errf = some .tcperrCallback
  arg : s.pcb.callbackArg = .connected
  neg : s.pc ≠ .returned → s.connected < 0 → s.pcb.live = false

theorem tcptxInv_callback {s : Tcptx.State} (h : TcptxInv s) (cb : Tcptx.Callback) :
    TcptxInv (Tcptx.callback s cb) := by
  unfold Tcptx.callback
  by_cases hl : s.pcb.live = true
  · rw [if_pos hl]
    cases cb with
    | connected =>
      exact ⟨h.kind, h.errf, h.arg, fun _ (hneg : (1 : ℤ) < 0) => absurd hneg (by decide)⟩
    | err f => exact ⟨h.kind, h.errf, h.arg, fun _ _ => rfl⟩
    | closed =>
      dsimp only
      split_ifs
      · exact ⟨h.kind, h.errf, h.arg, fun _ _ => rfl⟩
      · exact h
  · rwa [if_neg hl]

theorem tcptxInv_etherPoll {s : Tcptx.State} (h : TcptxInv s) (cbs : List Tcptx.Callback) :
    TcptxInv (Tcptx.etherPoll s cbs) := by
  induction cbs generalizing s with
  | nil => exact h
  | cons cb cbs ih => exact ih (tcptxInv_callback h cb)

theorem tcptxInv_use {s : Tcptx.State} (h : TcptxInv s) (c : Tcptx.Call) : TcptxInv (s.use c) := by
  unfold Tcptx.State.use
  split_ifs
  · exact h
  · exact ⟨h.kind, h.errf, h.arg, h.neg⟩

/-- A change of the program counter by a step that `tcptx` makes before it returns. -/
theorem TcptxInv.move {s : Tcptx.State} (h : TcptxInv s) (hpc : s.pc ≠ .returned)
    (pc : Tcptx.Pc) : TcptxInv { s with pc := pc } :=
  ⟨h.kind, h.errf, h.arg, fun _ => h.neg hpc⟩

theorem tcptxInv_step (pkts sendqlth : ℕ) (s : Tcptx.State) (inp : Tcptx.Input)
    (h : TcptxInv s) : TcptxInv (Tcptx.step pkts sendqlth s inp) := by
  have hpoll := tcptxInv_etherPoll h inp.polled
  have huse : ∀ c pc, s.pc ≠ .returned → TcptxInv { s.use c with pc := pc } := by
    intro c pc hpc
    refine (tcptxInv_use h c).move ?_ pc
    unfold Tcptx.State.use
    split_ifs <;> exact hpc
  cases hpc : s.pc with
  | connecting =>
    have hret : (Tcptx.etherPoll s inp.polled).pc ≠ .returned := by simp [hpc]
    simp only [Tcptx.step, hpc]
    split_ifs
    · exact hpoll
    · exact hpoll.move hret _
    · exact hpoll.move hret _
  | write i => simpa only [Tcptx.step, hpc] using huse _ _ (by simp [hpc])
  | output i => simpa only [Tcptx.step, hpc] using huse _ _ (by simp [hpc])
  | drain => simpa only [Tcptx.step, hpc] using huse _ _ (by simp [hpc])
  | close => simpa only [Tcptx.step, hpc] using huse _ _ (by simp [hpc])
  | poll i err => simpa only [Tcptx.step, hpc] using hpoll.move (by simp [hpc]) _
  | drainPoll => simpa only [Tcptx.step, hpc] using hpoll.move (by simp [hpc]) _
  | returned => simpa only [Tcptx.step, hpc] using hpoll

theorem tcptxInv_init : TcptxInv Tcptx.init :=
  ⟨rfl, rfl, rfl, fun _ h => absurd h (by decide)⟩

/-- The callback of `tcptx` is in order unless the call is over and the pcb is not. -/
theorem tcptx_safe_iff_alive {s : Tcptx.State} (h : TcptxInv s) :
    s.world.Safe ↔ (s.pc = .returned → s.pcb.live = false) := by
  have harg : s.world.PointsToInt s.pcb.callbackArg ↔ s.pc ≠ .returned := by
    simp [h.arg, World.PointsToInt, Tcptx.State.world]
  constructor
  · rintro ⟨-, hargs⟩ hret
    cases hl : s.pcb.live with
    | false => rfl
    | true =>
      have := hargs s.pcb (by simp [Tcptx.State.world]) hl (by simp [h.errf])
      exact absurd hret (harg.1 this)
  · intro hdead
    refine ⟨fun p hp _ => ?_, fun p hp hl _ => ?_⟩
    · rw [List.mem_singleton.1 hp]
      exact h.kind
    · rw [List.mem_singleton.1 hp] at hl ⊢
      exact harg.2 fun hret => by simp [hdead hret] at hl

theorem tcptx_safe_step (pkts sendqlth : ℕ) (s : Tcptx.State) (inp : Tcptx.Input)
    (h : TcptxInv s) (hsafe : s.world.Safe) :
    (Tcptx.step pkts sendqlth s inp).world.Safe ↔ ¬ ClosesLive s := by
  rw [tcptx_safe_iff_alive h] at hsafe
  rw [tcptx_safe_iff_alive (tcptxInv_step pkts sendqlth s inp h)]
  have hpoll := tcptxInv_etherPoll h inp.polled
  cases hpc : s.pc with
  | connecting =>
    have hret : (Tcptx.etherPoll s inp.polled).pc ≠ .returned := by simp [hpc]
    simp only [ClosesLive, Tcptx.step, hpc, reduceCtorEq, false_and, not_false_iff, iff_true]
    split_ifs with h0 hneg
    · simp [hpc]
    · exact fun _ => hpoll.neg hret hneg
    · rcases Tcptx.loopHead_cases pkts 0 with he | he <;> simp [he]
  | write i => simp [ClosesLive, Tcptx.step, hpc]
  | output i =>
    simp only [ClosesLive, Tcptx.step, hpc, reduceCtorEq, false_and, not_false_iff, iff_true]
    rcases Tcptx.loopHead_cases pkts (i + 1) with he | he <;> simp [he]
  | drain =>
    simp only [ClosesLive, Tcptx.step, hpc, reduceCtorEq, false_and, not_false_iff, iff_true]
    split_ifs <;> simp
  | poll i err =>
    simp only [ClosesLive, Tcptx.step, hpc, reduceCtorEq, false_and, not_false_iff, iff_true]
    split_ifs <;> simp
  | drainPoll => simp [ClosesLive, Tcptx.step, hpc]
  | close =>
    cases hl : s.pcb.live with
    | true => simp [ClosesLive, Tcptx.step, hpc, Tcptx.use_of_live hl, hl]
    | false => simp [ClosesLive, Tcptx.step, hpc, Tcptx.State.use, hl]
  | returned =>
    have hdead := hsafe hpc
    simp [ClosesLive, Tcptx.step, hpc, Tcptx.etherPoll_of_dead hdead, hdead]

/-! ### `tcprx` -/

/-- `tcprx` and the main loop after it. -/
structure Tcprx where
  pcbl : Pcb
  conns : List Pcb
  /-- The static `pcba`, an index into `conns`. -/
  pcba : Option ℕ
  /-- In `while (pcba == NULL) ether_poll();`. -/
  waiting : Bool
  deriving DecidableEq

def tcprxInit : Tcprx := ⟨tcpListen tcpNew, [], none, true⟩

inductive TcprxEvent
  | syn
  /-- The handshake of connection `i` is complete: `accept_callback`. -/
  | accept (i : ℕ)
  /-- `tcprx` finds `pcba` set, leaves its loop and returns. -/
  | resume
  /-- Connection `i` is reset or aborted. -/
  | reset (i : ℕ) (f : Fatal)
  /-- Connection `i` was closed by `recv_callback` and lwIP is done with it. -/
  | freed (i : ℕ)

def tcprxStep (s : Tcprx) : TcprxEvent → Tcprx
  | .syn => if s.pcbl.live then { s with conns := s.conns ++ [tcpListenInput s.pcbl] } else s
  | .accept i => if (s.conns[i]?.map Pcb.live) = some true then { s with pcba := some i } else s
  | .resume =>
    match s.waiting, s.pcba with
    | true, some i =>
      { s with
        conns := s.conns.modify i fun p => tcpErr p (some .tcperrCallback)
        pcbl := s.pcbl.free
        waiting := false }
    | _, _ => s
  | .reset i _ => { s with conns := s.conns.modify i Pcb.free }
  | .freed i => { s with conns := s.conns.modify i Pcb.free }

def Tcprx.world (s : Tcprx) : World where
  pcbs := s.pcbl :: s.conns
  connectedAlive := false

/-- `tcprx` registers its error callback on a live connection. -/
def RegistersLive (s : Tcprx) : TcprxEvent → Prop
  | .resume => s.waiting = true ∧ ∃ i p, s.pcba = some i ∧ s.conns[i]? = some p ∧ p.live = true
  | _ => False

/-- What holds of `tcprx` in every state. -/
structure TcprxInv (s : Tcprx) : Prop where
  pcbl : s.pcbl.kind = .listen ∧ s.pcbl.callbackArg = .null ∧ s.pcbl.errf = none ∧
    s.pcbl.errCalls = 0
  conn : ∀ p ∈ s.conns, p.kind = .connection ∧ p.callbackArg = .null

theorem tcprxInv_init : TcprxInv tcprxInit := by
  refine ⟨⟨rfl, rfl, rfl, rfl⟩, fun p hp => ?_⟩
  simp [tcprxInit] at hp

/-- The connections after a step are those before it, each touched, and at most a new one. -/
theorem tcprxStep_conns (s : Tcprx) (e : TcprxEvent) {q : Pcb} (hq : q ∈ (tcprxStep s e).conns) :
    (∃ p ∈ s.conns, Touch (p.live = true → RegistersLive s e) p q) ∨
      q = tcpListenInput s.pcbl := by
  cases e with
  | syn =>
    simp only [tcprxStep] at hq
    split_ifs at hq
    · rcases List.mem_append.1 hq with hold | hnew
      · exact Or.inl ⟨q, hold, .keep⟩
      · exact Or.inr (List.mem_singleton.1 hnew)
    · exact Or.inl ⟨q, hq, .keep⟩
  | accept i =>
    simp only [tcprxStep] at hq
    split_ifs at hq <;> exact Or.inl ⟨q, hq, .keep⟩
  | resume =>
    left
    cases hw : s.waiting with
    | false =>
      simp only [tcprxStep, hw] at hq
      exact ⟨q, hq, .keep⟩
    | true =>
      cases ha : s.pcba with
      | none =>
        simp only [tcprxStep, hw, ha] at hq
        exact ⟨q, hq, .keep⟩
      | some i =>
        simp only [tcprxStep, hw, ha] at hq
        rcases mem_modify hq with hold | ⟨p, hp, rfl⟩
        · exact ⟨q, hold, .keep⟩
        · exact ⟨p, List.mem_of_getElem? hp, .register fun hl => ⟨hw, i, p, ha, hp, hl⟩⟩
  | reset i f =>
    left
    rcases mem_modify hq with hold | ⟨p, hp, rfl⟩
    · exact ⟨q, hold, .keep⟩
    · exact ⟨p, List.mem_of_getElem? hp, .free⟩
  | freed i =>
    left
    rcases mem_modify hq with hold | ⟨p, hp, rfl⟩
    · exact ⟨q, hold, .keep⟩
    · exact ⟨p, List.mem_of_getElem? hp, .free⟩

theorem tcprxStep_pcbl (s : Tcprx) (e : TcprxEvent) :
    (tcprxStep s e).pcbl = s.pcbl ∨ (tcprxStep s e).pcbl = s.pcbl.free := by
  cases e with
  | syn => simp only [tcprxStep]; split_ifs <;> exact Or.inl rfl
  | accept i => simp only [tcprxStep]; split_ifs <;> exact Or.inl rfl
  | resume => simp only [tcprxStep]; split <;> simp
  | reset i f => exact Or.inl rfl
  | freed i => exact Or.inl rfl

theorem tcprxInv_step (s : Tcprx) (e : TcprxEvent) (hs : TcprxInv s) :
    TcprxInv (tcprxStep s e) := by
  constructor
  · rcases tcprxStep_pcbl s e with h | h <;> rw [h] <;> exact hs.pcbl
  · intro q hq
    rcases tcprxStep_conns s e hq with ⟨p, hp, ht⟩ | rfl
    · obtain ⟨hk, ha⟩ := hs.conn p hp
      exact ⟨ht.kind_eq.trans hk, ht.callbackArg_eq.trans ha⟩
    · exact ⟨rfl, hs.pcbl.2.1⟩

theorem TcprxInv.arg_null {s : Tcprx} (hs : TcprxInv s) :
    ∀ p ∈ s.world.pcbs, p.callbackArg = .null := by
  intro p hp
  rcases List.mem_cons.1 hp with rfl | h
  · exact hs.pcbl.2.1
  · exact (hs.conn p h).2

/-- `tcprx` applies `tcp_err` to connections only. -/
theorem TcprxInv.errOnConnections {s : Tcprx} (hs : TcprxInv s) : s.world.ErrOnConnections := by
  intro p hp hne
  rcases List.mem_cons.1 hp with rfl | h
  · exact absurd hs.pcbl.2.2.2 hne
  · exact (hs.conn p h).1

/-- The callbacks of `tcprx` stay in order unless it registers one on a live connection. -/
theorem tcprx_safe_step (s : Tcprx) (e : TcprxEvent) (hs : TcprxInv s) (h : s.world.Safe) :
    (tcprxStep s e).world.Safe ↔ ¬ RegistersLive s e := by
  have hs' := tcprxInv_step s e hs
  have hq := (argsAlive_iff_quiet hs.arg_null).1 h.2
  rw [World.Safe, argsAlive_iff_quiet hs'.arg_null]
  constructor
  · rintro ⟨-, hq'⟩ hreg
    cases e with
    | resume =>
      obtain ⟨hw, i, p, ha, hp, hl⟩ := hreg
      have hmem : tcpErr p (some .tcperrCallback) ∈ (tcprxStep s .resume).world.pcbs := by
        refine List.mem_cons_of_mem _ (List.mem_of_getElem? (i := i) ?_)
        simp [tcprxStep, hw, ha, hp]
      have := hq' _ hmem (by simpa using hl)
      rw [tcpErr_errf (hs.conn p (List.mem_of_getElem? hp)).1] at this
      exact absurd this (by simp)
    | _ => exact hreg
  · intro hreg
    refine ⟨hs'.errOnConnections, fun q hmem hl => ?_⟩
    rcases List.mem_cons.1 hmem with rfl | hmem
    · exact hs'.pcbl.2.2.1
    · rcases tcprxStep_conns s e hmem with ⟨p, hp, ht⟩ | rfl
      · cases ht with
        | keep => exact hq q (List.mem_cons_of_mem _ hp) hl
        | free => simp [Pcb.free] at hl
        | unregister => exact tcpErr_errf (hs.conn p hp).1 none
        | register hr => exact absurd (hr (by simpa using hl)) hreg
      · rfl

/-! ### Whole runs -/

theorem serverInit_safe : serverInit.world.Safe := by
  refine ⟨fun p hp => ?_, fun p hp => ?_⟩ <;> simp [serverInit, Server.world] at hp

theorem tcptxInit_safe : Tcptx.init.world.Safe :=
  (tcptx_safe_iff_alive tcptxInv_init).2 fun h => absurd h (by decide)

theorem tcprxInit_safe : tcprxInit.world.Safe := by
  refine ⟨tcprxInv_init.errOnConnections, (argsAlive_iff_quiet tcprxInv_init.arg_null).2 ?_⟩
  rintro p hp -
  rw [List.mem_singleton.1 hp]
  rfl

/-- **When an error callback may run.** In every order of events:

* the servers have `tcp_err` applied to connections only as long as they are not started, and
  every registered callback of theirs has its argument as long as they accept nothing;
* `tcptx` is safe unless it returns through `tcp_close` with its connection alive;
* `tcprx` is safe unless the connection that it has accepted is alive when it goes on. -/
theorem err_callbacks_safe_iff (k : ServerSketch) (es : List ServerEvent) (pkts sendqlth : ℕ)
    (inps : List Tcptx.Input) (rxs : List TcprxEvent) :
    (Always (serverStep k) (fun s => s.world.Safe) serverInit es ↔
      Along (serverStep k) (fun _ e => e ≠ .setup) serverInit es) ∧
    (Always (serverStep k) (fun s => s.world.ArgsAlive) serverInit es ↔
      Along (serverStep k) (fun s e => ¬ Accepts s e) serverInit es) ∧
    (Always (Tcptx.step pkts sendqlth) (fun s => s.world.Safe) Tcptx.init inps ↔
      Along (Tcptx.step pkts sendqlth) (fun s _ => ¬ ClosesLive s) Tcptx.init inps) ∧
    (Always tcprxStep (fun s => s.world.Safe) tcprxInit rxs ↔
      Along tcprxStep (fun s e => ¬ RegistersLive s e) tcprxInit rxs) := by
  refine ⟨?_, ?_, ?_, ?_⟩
  · exact always_iff_along (serverInv_step k) (server_safe_step k) serverInv_init serverInit_safe es
  · exact always_iff_along (serverInv_step k) (server_argsAlive_step k) serverInv_init
      serverInit_safe.2 es
  · exact always_iff_along (tcptxInv_step pkts sendqlth) (tcptx_safe_step pkts sendqlth)
      tcptxInv_init tcptxInit_safe inps
  · exact always_iff_along tcprxInv_step tcprx_safe_step tcprxInv_init tcprxInit_safe rxs

/-- `tcptx` without blocks to send: it connects, finds its send buffer empty, and closes. -/
def connectAndClose : List Tcptx.Input :=
  [⟨[.connected], 0, 0⟩, ⟨[], 0, 0⟩, ⟨[], 0, 0⟩]

/-- Each sketch can come to a point where a reset would write through a stray pointer: the
servers with their first connection (and `tcp_err` on the listening pcb before that), `tcptx`
after its return, `tcprx` with the connection that it has accepted. -/
theorem err_callbacks_go_astray :
    (∀ k, ¬ (run (serverStep k) serverInit [.setup]).world.ErrOnConnections ∧
      ¬ (run (serverStep k) serverInit [.setup, .syn, .accept 0 false]).world.ArgsAlive) ∧
    ¬ (run (Tcptx.step 0 0) Tcptx.init connectAndClose).world.ArgsAlive ∧
    ¬ (run tcprxStep tcprxInit [.syn, .accept 0, .resume]).world.ArgsAlive := by
  refine ⟨fun k => ⟨fun h => ?_, fun h => ?_⟩, fun h => ?_, fun h => ?_⟩
  · have := h serverPcbl List.mem_cons_self (by decide)
    exact absurd this (by decide)
  · refine h (tcpErr (tcpListenInput serverPcbl) (some .tcperrCallback)) ?_ rfl (by decide)
    exact List.mem_cons_of_mem _ List.mem_cons_self
  · have : false = true := h Tcptx.init.pcb List.mem_cons_self rfl (by decide)
    exact absurd this (by decide)
  · refine h (tcpErr (tcpListenInput tcprxInit.pcbl) (some .tcperrCallback)) ?_ rfl (by decide)
    exact List.mem_cons_of_mem _ List.mem_cons_self

end Lwip
