import Teensy3.Lib.Run
import Teensy3.Lwip.Pbuf

/-!
# The web server and TCP segmentation

`recv_callback` of `websrv.ino.tmp` looks for a command in the chain of pbufs that it is called
with, sets the LED, and sends a whole reply.  It keeps nothing from one call to the next, so what
a request does depends on how it was cut into segments.

* `recvCallback` is the callback, and `run recvCallback` a connection on which `tcp_write` always
  succeeds;
* `led_run` and `sent_run` say what a sequence of calls does, in terms of the commands found
  in the single segments and of their number;
* `segmentation_irrelevant_iff` compares two ways of cutting one request.
-/

namespace Lwip
namespace WebServer

open Machine

/-! ### Strings -/

/-- The bytes of a string literal, without the final NUL. -/
def bytesOf (s : String) : List Byte := s.toList.map fun c => BitVec.ofNat 8 c.toNat

/-- `line.indexOf(str)`, with `none` for `-1`: `strstr`, which ends at the first NUL. -/
def indexOf (line str : List Byte) : Option ℕ :=
  (line.takeWhile (· ≠ 0)).tails.findIdx? str.isPrefixOf

theorem indexOf_eq_none_of_length_lt {line str : List Byte} (h : line.length < str.length) :
    indexOf line str = none := by
  refine List.findIdx?_eq_none_iff.2 fun t ht => ?_
  rw [Bool.eq_false_iff]
  intro hpre
  have h1 := (List.isPrefixOf_iff_prefix.1 hpre).length_le
  have h2 := ((List.mem_tails _ _).1 ht).length_le
  have h3 := (List.takeWhile_prefix (l := line) (· ≠ (0 : Byte))).length_le
  omega

/-- A piece of what is sent: a byte, or the decimal digits of the uptime. -/
inductive Piece
  | byte (b : Byte)
  | uptime (ms : BitVec 32)
  deriving DecidableEq

/-- Forget the number. -/
def Piece.erase : Piece → Option Byte
  | .byte b => some b
  | .uptime _ => none

def text (s : String) : List Piece := (bytesOf s).map .byte

/-! ### The sketch -/

structure Web where
  /-- The level at `LEDpin`. -/
  led : Bool
  /-- What has been passed to `tcp_write`. -/
  sent : List Piece
  recvCb : Bool
  sentCb : Bool

/-- One call of `recv_callback` with a chain of pbufs, and the value of `millis()` in it. -/
structure Received where
  mem : ℕ → Byte
  p : Pbuf
  millis : BitVec 32

def msg1 : List Piece :=
  text "HTTP/1.0 200 OK\nContent-type:text/html\n\n<H1>K64/K66 web server</H1>\n"

def msg2 : List Piece :=
  text ("<br>Click <a href=\"/LEDON\">here</a> turn the LED on" ++
    "<br>Click <a href=\"/LEDOFF\">here</a> turn the LED off\n")

/-- The last part of the reply, printed with `"<hr>\n uptime %lu ms\n\n"`. -/
def uptimeStr (ms : BitVec 32) : List Piece :=
  text "<hr>\n uptime " ++ [.uptime ms] ++ text " ms\n\n"

def digitalWrite (s : Web) (level : Bool) : Web := { s with led := level }

/-- `tcp_write` always succeeds here. -/
def tcpSendstr (s : Web) (str : List Piece) : Web := { s with sent := s.sent ++ str }

def webClose (s : Web) : Web := { s with recvCb := false, sentCb := false }

/-- The string that `recv_callback` collects from `p->payload`. -/
def Received.line (d : Received) : List Byte := d.p.payloadBytes d.mem

/-- `recv_callback`, where `none` stands for `p == NULL`. -/
def recvCallback (s : Web) : Option Received → Web
  | none => webClose s
  | some d =>
    let s := if indexOf d.line (bytesOf "GET /LEDON") ≠ none then digitalWrite s true else s
    let s := if indexOf d.line (bytesOf "GET /LEDOFF") ≠ none then digitalWrite s false else s
    let s := tcpSendstr s msg1
    let s := tcpSendstr s msg2
    let s := { s with sentCb := true }
    tcpSendstr s (uptimeStr d.millis)

/-- Call `recv_callback` with one segment after another. -/
def receiveAll (s : Web) (ds : List Received) : Web := run recvCallback s (ds.map some)

/-- The segments, one pbuf each and none empty, that the request `r` was cut into. -/
def CutInto (r : List Byte) (ds : List Received) : Prop :=
  ds.flatMap (fun d => d.p.data d.mem) = r ∧ ∀ d ∈ ds, d.p.next = [] ∧ d.p.totLen ≠ 0

/-- The LED ends at the same level, and the same bytes are sent but for the uptime. -/
def SameOutcome (s : Web) (cs ds : List Received) : Prop :=
  (receiveAll s cs).led = (receiveAll s ds).led ∧
    (receiveAll s cs).sent.map Piece.erase = (receiveAll s ds).sent.map Piece.erase

/-! ### What the calls do -/

/-- The level that a segment sets the LED to. -/
def Received.command (d : Received) : Option Bool :=
  if indexOf d.line (bytesOf "GET /LEDOFF") ≠ none then some false
  else if indexOf d.line (bytesOf "GET /LEDON") ≠ none then some true
  else none

/-- The level set by the last segment that sets one. -/
def lastCommand (ds : List Received) : Option Bool := (ds.filterMap Received.command).getLast?

/-- The reply to every segment. -/
def reply : List (Option Byte) := (msg1 ++ msg2 ++ uptimeStr 0).map Piece.erase

theorem led_recvCallback (s : Web) (d : Received) :
    (recvCallback s (some d)).led = d.command.getD s.led := by
  simp only [recvCallback, tcpSendstr, digitalWrite, Received.command]
  split_ifs <;> rfl

theorem sent_recvCallback (s : Web) (d : Received) :
    (recvCallback s (some d)).sent.map Piece.erase = s.sent.map Piece.erase ++ reply := by
  have huptime : (uptimeStr d.millis).map Piece.erase = (uptimeStr 0).map Piece.erase := by
    simp [uptimeStr, Piece.erase]
  simp only [recvCallback, tcpSendstr, digitalWrite, reply, List.map_append, huptime]
  split_ifs <;> simp

theorem led_run (s : Web) (ds : List Received) :
    (receiveAll s ds).led = (lastCommand ds).getD s.led := by
  induction ds generalizing s with
  | nil => rfl
  | cons d ds ih =>
    have hrun : receiveAll s (d :: ds) = receiveAll (recvCallback s (some d)) ds := rfl
    rw [hrun, ih, led_recvCallback, lastCommand, lastCommand, List.filterMap_cons]
    cases d.command with
    | none => rfl
    | some b =>
      rw [List.getLast?_cons]
      cases (ds.filterMap Received.command).getLast? <;> rfl

theorem sent_run (s : Web) (ds : List Received) :
    (receiveAll s ds).sent.map Piece.erase =
      s.sent.map Piece.erase ++ (List.replicate ds.length reply).flatten := by
  induction ds generalizing s with
  | nil => simp [receiveAll]
  | cons d ds ih =>
    have hrun : receiveAll s (d :: ds) = receiveAll (recvCallback s (some d)) ds := rfl
    rw [hrun, ih, sent_recvCallback, List.length_cons, List.replicate_succ, List.flatten_cons,
      List.append_assoc]

theorem reply_length_pos : 0 < reply.length := by
  simp [reply, uptimeStr]

/-- The same bytes are sent exactly for the same number of segments. -/
theorem sent_eq_iff (s : Web) (cs ds : List Received) :
    (receiveAll s cs).sent.map Piece.erase = (receiveAll s ds).sent.map Piece.erase ↔
      cs.length = ds.length := by
  rw [sent_run, sent_run, List.append_cancel_left_eq]
  constructor
  · intro h
    have hlen := congrArg List.length h
    simp only [List.length_flatten, List.map_replicate, List.sum_replicate, smul_eq_mul] at hlen
    exact Nat.eq_of_mul_eq_mul_right reply_length_pos hlen
  · intro h
    rw [h]

/-- Two sequences of calls have the same outcome exactly if they are as many and their last
commands agree. -/
theorem sameOutcome_iff (cs ds : List Received) :
    (∀ s, SameOutcome s cs ds) ↔ cs.length = ds.length ∧ lastCommand cs = lastCommand ds := by
  simp only [SameOutcome, sent_eq_iff, led_run]
  constructor
  · intro h
    refine ⟨(h ⟨true, [], true, false⟩).2, ?_⟩
    -- a command that only one of the two has shows from one of the initial levels
    have htrue := (h ⟨true, [], true, false⟩).1
    have hfalse := (h ⟨false, [], true, false⟩).1
    cases hc : lastCommand cs <;> cases hd : lastCommand ds <;> simp_all
  · rintro ⟨hlen, hcmd⟩ s
    exact ⟨by rw [hcmd], hlen⟩

/-! ### Two ways of cutting a request -/

/-- The segment with the bytes `bs`, at address 0. -/
def segment (bs : List Byte) (h : bs.length < 2 ^ 16) : Received :=
  ⟨ByteMem.blit (fun _ => 0) 0 bs, .single 0 bs.length h, 0⟩

theorem segment_data (bs : List Byte) (h : bs.length < 2 ^ 16) :
    (segment bs h).p.data (segment bs h).mem = bs := by
  simp [segment, Pbuf.single, Pbuf.data, Pbuf.nextData, Segment.data, ByteMem.read_blit_self]

/-- Every byte a segment of its own. -/
def byteByByte (r : List Byte) : List Received := r.map fun b => segment [b] (by simp)

theorem cutInto_cons (bs : List Byte) {r : List Byte} {ds : List Received} (h : bs.length < 2 ^ 16)
    (hne : bs ≠ []) (hr : CutInto r ds) : CutInto (bs ++ r) (segment bs h :: ds) := by
  constructor
  · rw [List.flatMap_cons, segment_data, hr.1]
  · rintro d (_ | ⟨_, hd⟩)
    · refine ⟨rfl, ?_⟩
      rw [← Pbuf.length_data (segment bs h).mem, segment_data]
      simpa using hne
    · exact hr.2 d hd

theorem cutInto_byteByByte (r : List Byte) : CutInto r (byteByByte r) := by
  induction r with
  | nil => exact ⟨rfl, by simp [byteByByte]⟩
  | cons b r ih => exact cutInto_cons [b] (by simp) (by simp) ih

/-- A request has at least as many bytes as segments. -/
theorem CutInto.length_le {r : List Byte} {ds : List Received} (h : CutInto r ds) :
    ds.length ≤ r.length := by
  obtain ⟨rfl, hne⟩ := h
  induction ds with
  | nil => simp
  | cons d ds ih =>
    have hd := (hne d List.mem_cons_self).2
    have := ih fun d' hd' => hne d' (List.mem_cons_of_mem d hd')
    rw [List.flatMap_cons, List.length_append, Pbuf.length_data, List.length_cons]
    omega

/-- A segment that is shorter than a command word has no command. -/
theorem command_eq_none {d : Received} (h : d.p.totLen < 10) : d.command = none := by
  have hlen : d.line.length = d.p.totLen := Pbuf.length_payloadBytes _ _
  have hon : indexOf d.line (bytesOf "GET /LEDON") = none :=
    indexOf_eq_none_of_length_lt (hlen ▸ h)
  have hoff : indexOf d.line (bytesOf "GET /LEDOFF") = none :=
    indexOf_eq_none_of_length_lt (hlen ▸ h.trans (by decide))
  simp [Received.command, hon, hoff]

theorem CutInto.totLen_le {r : List Byte} {ds : List Received} (h : CutInto r ds) {d : Received}
    (hd : d ∈ ds) : d.p.totLen ≤ r.length := by
  have hsub : (d.p.data d.mem).Sublist (ds.flatMap fun d => d.p.data d.mem) :=
    List.sublist_flatten_of_mem (List.mem_map_of_mem hd)
  rw [h.1] at hsub
  simpa using hsub.length_le

/-- A request of at most one byte has as many segments as bytes, and no command. -/
theorem CutInto.of_length_le_one {r : List Byte} {ds : List Received} (h : CutInto r ds)
    (hr : r.length ≤ 1) : ds.length = r.length ∧ lastCommand ds = none := by
  constructor
  · cases ds with
    | nil => rw [← h.1]; rfl
    | cons d ds =>
      have := h.length_le
      simp only [List.length_cons] at this ⊢
      omega
  · have hnone : ds.filterMap Received.command = [] := by
      refine List.filterMap_eq_nil_iff.2 fun d hd => command_eq_none ?_
      have := h.totLen_le hd
      omega
    rw [lastCommand, hnone]
    rfl

/-- **When segmentation does not matter.** Two ways of cutting a request have the same outcome
from every state if and only if they have the same number of segments and the last segments that
hold a command word ask for the same level.  All ways of cutting the request have the same
outcome if and only if it has at most one byte, and so can be cut in one way only. -/
theorem segmentation_irrelevant_iff (r : List Byte) :
    (∀ cs ds, CutInto r cs → CutInto r ds →
      ((∀ s, SameOutcome s cs ds) ↔
        cs.length = ds.length ∧ lastCommand cs = lastCommand ds)) ∧
    ((∀ cs ds, CutInto r cs → CutInto r ds → ∀ s, SameOutcome s cs ds) ↔ r.length ≤ 1) := by
  refine ⟨fun cs ds _ _ => sameOutcome_iff cs ds, ?_⟩
  constructor
  · intro h
    by_contra hlong
    obtain ⟨a, b, t, rfl⟩ : ∃ a b t, r = a :: b :: t := by
      match r, hlong with
      | [], h0 => simp at h0
      | [_], h1 => simp at h1
      | a :: b :: t, _ => exact ⟨a, b, t, rfl⟩
    -- the first two bytes in one segment, or in two
    have hjoined := cutInto_cons [a, b] (by simp) (by simp) (cutInto_byteByByte t)
    have hsame := h _ _ (cutInto_byteByByte (a :: b :: t)) hjoined
    have hlen := ((sameOutcome_iff _ _).1 hsame).1
    simp [byteByByte] at hlen
  · intro hr cs ds hcs hds
    obtain ⟨hlc, hcc⟩ := hcs.of_length_le_one hr
    obtain ⟨hld, hcd⟩ := hds.of_length_le_one hr
    exact (sameOutcome_iff cs ds).2 ⟨hlc.trans hld.symm, hcc.trans hcd.symm⟩

/-- `GET /LEDON` in one segment turns the LED on with one reply; cut before `ON` it leaves the LED
off and is replied to twice. -/
theorem ledon_depends_on_segmentation :
    let off : Web := ⟨false, [], true, false⟩
    let whole := [segment (bytesOf "GET /LEDON") (by decide)]
    let halves := [segment (bytesOf "GET /LED") (by decide), segment (bytesOf "ON") (by decide)]
    CutInto (bytesOf "GET /LEDON") whole ∧ CutInto (bytesOf "GET /LEDON") halves ∧
      (receiveAll off whole).led = true ∧ (receiveAll off halves).led = false ∧
      ¬ SameOutcome off whole halves := by
  intro off whole halves
  have hwhole : (receiveAll off whole).led = true := by
    rw [led_run]
    decide
  have hhalves : (receiveAll off halves).led = false := by
    rw [led_run]
    decide
  refine ⟨⟨by decide, by decide⟩, ⟨by decide, by decide⟩, hwhole, hhalves, fun h => ?_⟩
  have := h.1
  rw [hwhole, hhalves] at this
  exact absurd this (by decide)

end WebServer
end Lwip
