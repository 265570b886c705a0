import Teensy3.Lib.ByteMem

/-!
# Chains of pbufs

A received packet is a `struct pbuf` with a list of further ones behind it.  `tot_len` counts the
bytes of the whole chain, but `payload` points to those of the first pbuf only: what lies behind
them in memory need not belong to the packet.
-/

namespace Lwip

open ByteMem

/-- The fields `payload` and `len` of one pbuf. -/
structure Segment where
  payload : ℕ
  len : ℕ
  deriving DecidableEq

/-- A chain of pbufs; `tot_len` is a `u16_t`. -/
structure Pbuf where
  first : Segment
  next : List Segment
  totLen_lt : first.len + (next.map Segment.len).sum < 2 ^ 16

def Segment.data (mem : ℕ → Byte) (s : Segment) : List Byte := read mem s.payload s.len

namespace Pbuf

/-- The `tot_len` of `p->next`. -/
def nextLen (p : Pbuf) : ℕ := (p.next.map Segment.len).sum

def totLen (p : Pbuf) : ℕ := p.first.len + p.nextLen

/-- The data of `p->next`. -/
def nextData (mem : ℕ → Byte) (p : Pbuf) : List Byte := p.next.flatMap (Segment.data mem)

/-- The data of a chain: the payloads of its pbufs, joined. -/
def data (mem : ℕ → Byte) (p : Pbuf) : List Byte := p.first.data mem ++ p.nextData mem

/-- The bytes at `p->payload[0]` to `p->payload[p->tot_len - 1]`. -/
def payloadBytes (mem : ℕ → Byte) (p : Pbuf) : List Byte := read mem p.first.payload p.totLen

/-- Behind the payload of the first pbuf, memory holds the data of the other ones. -/
def Contiguous (mem : ℕ → Byte) (p : Pbuf) : Prop :=
  read mem (p.first.payload + p.first.len) p.nextLen = p.nextData mem

instance (mem : ℕ → Byte) (p : Pbuf) : Decidable (p.Contiguous mem) :=
  inferInstanceAs (Decidable (_ = _))

/-- A chain of one pbuf. -/
def single (payload len : ℕ) (h : len < 2 ^ 16) : Pbuf where
  first := ⟨payload, len⟩
  next := []
  totLen_lt := by simpa using h

@[simp] theorem length_nextData (mem : ℕ → Byte) (p : Pbuf) :
    (p.nextData mem).length = p.nextLen := by
  simp [nextData, nextLen, List.length_flatMap, Segment.data]

@[simp] theorem length_data (mem : ℕ → Byte) (p : Pbuf) : (p.data mem).length = p.totLen := by
  simp [data, totLen, Segment.data]

@[simp] theorem length_payloadBytes (mem : ℕ → Byte) (p : Pbuf) :
    (p.payloadBytes mem).length = p.totLen := by
  simp [payloadBytes]

/-- Reading the whole chain at the first payload is right only for a contiguous one. -/
theorem payloadBytes_eq_data_iff (mem : ℕ → Byte) (p : Pbuf) :
    p.payloadBytes mem = p.data mem ↔ p.Contiguous mem := by
  rw [payloadBytes, totLen, read_add, data, Segment.data, Contiguous, List.append_cancel_left_eq]

/-- A chain without data is contiguous. -/
theorem contiguous_of_totLen {p : Pbuf} (h : p.totLen = 0) (mem : ℕ → Byte) :
    p.Contiguous mem := by
  rw [← payloadBytes_eq_data_iff]
  rw [List.eq_nil_of_length_eq_zero ((length_payloadBytes mem p).trans h),
    List.eq_nil_of_length_eq_zero ((length_data mem p).trans h)]

end Pbuf

end Lwip
