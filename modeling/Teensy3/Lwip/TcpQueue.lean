import Teensy3.Lwip.TcpTiles

/-!
# The queues of a connection

With unbounded sequence numbers (`ℤ`), the segments of `unacked` and then those of `unsent` follow
each other without a gap, from the first byte that is not acknowledged up to the last one written,
and the counters of the control block say how many there are.

* `Pcb.Holds`: the control block accounts for a queue;
* `Pcb.Good`: the queues are in order, and what was transmitted is inside the window;
* `Pcb.SameSend`: nothing that counts for this has changed;
* `tcpWrite_cases`, `Good.tcpWrite`: writing;
* `sendFinAndEnter_cases`, `Good.sendFinAndEnter`: closing.
-/

namespace Lwip
namespace Tcp

open SeqNo

/-! ### The invariant -/

/-- Data can still be written. -/
def Pcb.isOpen {σ : Type} (pcb : Pcb σ) : Bool :=
  decide (pcb.state = .established ∨ pcb.state = .closeWait)

/-- Both queues. -/
def Pcb.queue {σ : Type} (pcb : Pcb σ) : List (Seg σ) := pcb.unacked ++ pcb.unsent

namespace Pcb

/-- The control block accounts for the queue `q`, whose segments go from `s` up to `top`. -/
structure Holds (s top : ℤ) (pcb : Pcb ℤ) (q : List (Seg ℤ)) : Prop where
  tiles : Tiles s q top
  start : s ≤ pcb.lastack
  each : ∀ seg ∈ q, 0 < seg.tcplen ∧ seg.len ≤ pcb.mss ∧ pcb.lastack < seg.seqEnd
  lastack_le : pcb.lastack ≤ pcb.sndNxt
  sndNxt_le : pcb.sndNxt ≤ top
  top_eq : top = pcb.sndLbb ∨ pcb.isOpen = false ∧ top = pcb.sndLbb + 1
  fin : pcb.isOpen = true → ∀ seg ∈ q, seg.fin = false
  buf : (pcb.sndBuf : ℤ) + pcb.sndLbb = sndBufSize + pcb.lastack
  queuelen : pcb.sndQueuelen = clens q
  queuelen_le : pcb.sndQueuelen ≤ sndQueuelenMax
  mss : 0 < pcb.mss ∧ pcb.mss ≤ maxMss
  cwnd : pcb.cwnd < 2 ^ 16
  ssthresh : pcb.ssthresh < 2 ^ 16
  sndWnd : pcb.sndWnd < 2 ^ 16

/-- What was transmitted is inside the window of the other side. -/
def Windowed (pcb : Pcb ℤ) : Prop := ∀ seg ∈ pcb.unacked, seg.dataEnd ≤ pcb.lastack + pcb.sndWnd

/-- The queues are in order. -/
def Good (pcb : Pcb ℤ) : Prop := ∃ s top, pcb.Holds s top pcb.queue ∧ pcb.Windowed

/-- The last unsent segment ends where the next byte goes. -/
def TailAtEnd (pcb : Pcb ℤ) : Prop :=
  ∀ seg, pcb.unsent.getLast? = some seg → seg.dataEnd = pcb.sndLbb

theorem Good.tailAtEnd {pcb : Pcb ℤ} (h : pcb.Good) (hopen : pcb.isOpen = true) :
    pcb.TailAtEnd := by
  obtain ⟨s, top, hq, -⟩ := h
  intro seg hseg
  have hmem : seg ∈ pcb.queue := List.mem_append_right _ (List.mem_of_getLast? hseg)
  have hlast : pcb.queue.getLast? = some seg := by
    rw [queue, List.getLast?_append, hseg, Option.some_or]
  have hend := hq.tiles.last hlast
  have hfin := hq.fin hopen seg hmem
  have htop : top = pcb.sndLbb := by
    rcases hq.top_eq with h | ⟨hclosed, -⟩
    · exact h
    · simp [hopen] at hclosed
  rw [← htop, ← hend, Seg.dataEnd, Seg.seqEnd, Seg.tcplen, hfin]
  simp

/-- What a control block counts. -/
structure Counts where
  lastack : ℤ
  sndNxt : ℤ
  sndLbb : ℤ
  sndBuf : ℕ
  sndQueuelen : ℕ
  sndWnd : ℕ
  mss : ℕ
  cwnd : ℕ
  ssthresh : ℕ
  inFr : Bool
  acked : ℕ

def counts (pcb : Pcb ℤ) : Counts :=
  ⟨pcb.lastack, pcb.sndNxt, pcb.sndLbb, pcb.sndBuf, pcb.sndQueuelen, pcb.sndWnd, pcb.mss, pcb.cwnd,
    pcb.ssthresh, pcb.inFr, pcb.acked⟩

/-- `pcb'` counts the same, and is open only if `pcb` is. -/
structure SameCount (pcb pcb' : Pcb ℤ) : Prop where
  counts : pcb'.counts = pcb.counts
  isOpen : pcb'.isOpen = true → pcb.isOpen = true

/-- `pcb'` has the same queues, too. -/
structure SameSend (pcb pcb' : Pcb ℤ) : Prop extends SameCount pcb pcb' where
  unacked : pcb'.unacked = pcb.unacked
  unsent : pcb'.unsent = pcb.unsent

section

variable {pcb pcb' : Pcb ℤ}

theorem SameCount.lastack (h : SameCount pcb pcb') : pcb'.lastack = pcb.lastack :=
  congrArg Counts.lastack h.counts

theorem SameCount.sndNxt (h : SameCount pcb pcb') : pcb'.sndNxt = pcb.sndNxt :=
  congrArg Counts.sndNxt h.counts

theorem SameCount.sndLbb (h : SameCount pcb pcb') : pcb'.sndLbb = pcb.sndLbb :=
  congrArg Counts.sndLbb h.counts

theorem SameCount.sndBuf (h : SameCount pcb pcb') : pcb'.sndBuf = pcb.sndBuf :=
  congrArg Counts.sndBuf h.counts

theorem SameCount.sndQueuelen (h : SameCount pcb pcb') : pcb'.sndQueuelen = pcb.sndQueuelen :=
  congrArg Counts.sndQueuelen h.counts

theorem SameCount.sndWnd (h : SameCount pcb pcb') : pcb'.sndWnd = pcb.sndWnd :=
  congrArg Counts.sndWnd h.counts

theorem SameCount.mss (h : SameCount pcb pcb') : pcb'.mss = pcb.mss :=
  congrArg Counts.mss h.counts

theorem SameCount.cwnd (h : SameCount pcb pcb') : pcb'.cwnd = pcb.cwnd :=
  congrArg Counts.cwnd h.counts

theorem SameCount.ssthresh (h : SameCount pcb pcb') : pcb'.ssthresh = pcb.ssthresh :=
  congrArg Counts.ssthresh h.counts

theorem SameCount.inFr (h : SameCount pcb pcb') : pcb'.inFr = pcb.inFr :=
  congrArg Counts.inFr h.counts

theorem SameCount.acked (h : SameCount pcb pcb') : pcb'.acked = pcb.acked :=
  congrArg Counts.acked h.counts

end

theorem SameSend.refl (pcb : Pcb ℤ) : SameSend pcb pcb := ⟨⟨rfl, id⟩, rfl, rfl⟩

theorem SameSend.trans {x y z : Pcb ℤ} (hxy : SameSend x y) (hyz : SameSend y z) : SameSend x z :=
  ⟨⟨hyz.counts.trans hxy.counts, fun h => hxy.isOpen (hyz.isOpen h)⟩,
    hyz.unacked.trans hxy.unacked, hyz.unsent.trans hxy.unsent⟩

theorem Holds.same {s top : ℤ} {pcb pcb' : Pcb ℤ} {q : List (Seg ℤ)} (h : pcb.Holds s top q)
    (hs : SameCount pcb pcb') : pcb'.Holds s top q where
  tiles := h.tiles
  start := by rw [hs.lastack]; exact h.start
  each := by rw [hs.lastack, hs.mss]; exact h.each
  lastack_le := by rw [hs.lastack, hs.sndNxt]; exact h.lastack_le
  sndNxt_le := by rw [hs.sndNxt]; exact h.sndNxt_le
  top_eq := by
    rw [hs.sndLbb]
    rcases h.top_eq with htop | ⟨hclosed, htop⟩
    · exact .inl htop
    · refine .inr ⟨?_, htop⟩
      by_contra hne
      simp [hs.isOpen (by simpa using hne)] at hclosed
  fin := fun hopen => h.fin (hs.isOpen hopen)
  buf := by rw [hs.sndBuf, hs.sndLbb, hs.lastack]; exact h.buf
  queuelen := by rw [hs.sndQueuelen]; exact h.queuelen
  queuelen_le := by rw [hs.sndQueuelen]; exact h.queuelen_le
  mss := by rw [hs.mss]; exact h.mss
  cwnd := by rw [hs.cwnd]; exact h.cwnd
  ssthresh := by rw [hs.ssthresh]; exact h.ssthresh
  sndWnd := by rw [hs.sndWnd]; exact h.sndWnd

theorem SameSend.queue {pcb pcb' : Pcb ℤ} (h : SameSend pcb pcb') : pcb'.queue = pcb.queue := by
  rw [Pcb.queue, Pcb.queue, h.unacked, h.unsent]

theorem Windowed.same {pcb pcb' : Pcb ℤ} (h : pcb.Windowed) (hs : SameSend pcb pcb') :
    pcb'.Windowed := by
  rw [Windowed, hs.unacked, hs.lastack, hs.sndWnd]
  exact h

theorem Good.same {pcb pcb' : Pcb ℤ} (h : pcb.Good) (hs : SameSend pcb pcb') : pcb'.Good := by
  obtain ⟨s, top, hq, hw⟩ := h
  exact ⟨s, top, by rw [hs.queue]; exact hq.same hs.toSameCount, hw.same hs⟩

/-- Whether a segment was transmitted does not count. -/
theorem Holds.setMoved {s top : ℤ} {pcb : Pcb ℤ} {xs ys : List (Seg ℤ)} {seg : Seg ℤ}
    (h : pcb.Holds s top (xs ++ seg :: ys)) (moved : Bool) :
    pcb.Holds s top (xs ++ { seg with moved := moved } :: ys) := by
  have hold : ∀ x ∈ xs ++ { seg with moved := moved } :: ys,
      ∃ y ∈ xs ++ seg :: ys, x.tcplen = y.tcplen ∧ x.len = y.len ∧ x.seqEnd = y.seqEnd ∧
        x.fin = y.fin := by
    intro x hx
    simp only [List.mem_append, List.mem_cons] at hx
    rcases hx with hx | rfl | hx
    · exact ⟨x, by simp [hx], rfl, rfl, rfl, rfl⟩
    · exact ⟨seg, by simp, rfl, rfl, rfl, rfl⟩
    · exact ⟨x, by simp [hx], rfl, rfl, rfl, rfl⟩
  refine { h with tiles := ?_, each := ?_, fin := ?_, queuelen := ?_ }
  · obtain ⟨m, hxs, hseg, hys⟩ := tiles_append.1 h.tiles
    exact tiles_append.2 ⟨m, hxs, hseg, hys⟩
  · intro x hx
    obtain ⟨y, hy, htcplen, hlen, hend, -⟩ := hold x hx
    rw [htcplen, hlen, hend]
    exact h.each y hy
  · intro hopen x hx
    obtain ⟨y, hy, -, -, -, hfin⟩ := hold x hx
    rw [hfin]
    exact h.fin hopen y hy
  · rw [h.queuelen, clens_append, clens_append]
    rfl

/-! ### Writing -/

theorem tcpWriteChecks_ok {pcb : Pcb ℤ} {n : ℕ} (h : (pcb.tcpWriteChecks n).1 = .ok) :
    (pcb.tcpWriteChecks n).2 = pcb ∧ pcb.isOpen = true ∧ n ≤ pcb.sndBuf ∧
      (0 < n → pcb.sndQueuelen < sndQueuelenMax) := by
  rw [tcpWriteChecks] at h ⊢
  split at h
  · simp at h
  · rename_i hopen
    have hisOpen : pcb.isOpen = true := by
      rw [isOpen, decide_eq_true_iff]
      tauto
    rw [if_neg hopen]
    split at h
    · rename_i hn
      rw [if_pos hn]
      exact ⟨rfl, hisOpen, by omega, by omega⟩
    · rename_i hn
      rw [if_neg hn]
      split at h
      · simp at h
      · rename_i hbuf
        rw [if_neg hbuf]
        split at h
        · simp at h
        · rename_i hlen
          rw [if_neg hlen]
          exact ⟨rfl, hisOpen, by omega, fun _ => by omega⟩

/-- A failed write changes a flag only. -/
theorem tcpWriteChecks_snd (pcb : Pcb ℤ) (n : ℕ) :
    (pcb.tcpWriteChecks n).2 = pcb ∨ (pcb.tcpWriteChecks n).2 = { pcb with nagleMemErr := true } := by
  rw [tcpWriteChecks]
  split
  · exact .inl rfl
  · split
    · exact .inl rfl
    · split
      · exact .inr rfl
      · split
        · exact .inr rfl
        · exact .inl rfl

/-- What `tcp_write` puts into the last unsent segment. -/
def concatenated (pcb : Pcb ℤ) (data : List Byte) : List (Seg ℤ) :=
  let k := pcb.concatLen data.length
  if k = 0 then pcb.unsent
  else mapLast (fun s => { s with data := s.data ++ data.take k, clen := s.clen + 1 }) pcb.unsent

/-- All that a write does: it fails without a change to the queues, or it adds to the last segment
and appends new ones. -/
theorem tcpWrite_cases (pcb : Pcb ℤ) (data : List Byte) (copy more : Bool) (alloc : ℕ → Bool) :
    ((pcb.tcpWrite data copy more alloc).1 ≠ .ok ∧
      ((pcb.tcpWrite data copy more alloc).2 = pcb ∨
        (pcb.tcpWrite data copy more alloc).2 = { pcb with nagleMemErr := true })) ∨
    ∃ (segs : List (Seg ℤ)) (queuelen : ℕ),
      pcb.isOpen = true ∧ data.length ≤ pcb.sndBuf ∧
      (0 < data.length → pcb.sndQueuelen < sndQueuelenMax) ∧
      newSegs pcb.mss copy alloc (sndQueuelenMax + 1) (pcb.sndLbb + pcb.concatLen data.length)
        (data.drop (pcb.concatLen data.length))
        (pcb.sndQueuelen + if pcb.concatLen data.length = 0 then 0 else 1) = some (segs, queuelen) ∧
      pcb.tcpWrite data copy more alloc = (.ok, { pcb with
        unsent :=
          if data = [] ∨ more = true then pcb.concatenated data ++ segs
          else mapLast (fun s => { s with psh := true }) (pcb.concatenated data ++ segs)
        sndLbb := pcb.sndLbb + data.length
        sndBuf := pcb.sndBuf - data.length
        sndQueuelen := queuelen }) := by
  have hsnd := tcpWriteChecks_snd pcb data.length
  rw [tcpWrite]
  split
  · rename_i pcb' heq
    have hok := tcpWriteChecks_ok (n := data.length) (by rw [heq])
    rw [heq] at hok
    obtain ⟨hpcb, hopen, hbuf, hlen⟩ := hok
    obtain rfl : pcb' = pcb := hpcb
    dsimp only
    split
    · exact .inl ⟨by simp, .inr rfl⟩
    · split
      · exact .inl ⟨by simp, .inr rfl⟩
      · rename_i segs queuelen hnew
        exact .inr ⟨segs, queuelen, hopen, hbuf, hlen, hnew, rfl⟩
  · rename_i err pcb' hne heq
    rw [heq] at hsnd
    exact .inl ⟨hne, hsnd⟩

/-- Not more than all of the data goes to the last segment. -/
theorem concatLen_le (pcb : Pcb ℤ) (n : ℕ) : pcb.concatLen n ≤ n := by
  rw [concatLen]
  split
  · exact Nat.zero_le n
  · dsimp only
    split
    · exact min_le_right _ n
    · exact Nat.zero_le n

theorem concatLen_cases {pcb : Pcb ℤ} (hlen : ∀ seg ∈ pcb.unsent, seg.len ≤ pcb.mss)
    (hmss : pcb.mss ≤ maxMss) (n : ℕ) :
    pcb.concatLen n = 0 ∨ ∃ seg, pcb.unsent.getLast? = some seg ∧ 0 < pcb.concatLen n ∧
      seg.len + pcb.concatLen n ≤ pcb.mss := by
  rw [concatLen]
  split
  · exact .inl rfl
  · rename_i seg hlast
    have hle := hlen seg (List.mem_of_getLast? hlast)
    have hmax : pcb.mss ≤ 1460 := hmss
    have hspace : (pcb.mss + 2 ^ 16 - seg.len) % 2 ^ 16 = pcb.mss - seg.len := by omega
    simp only [hspace]
    split
    · refine .inr ⟨seg, hlast, ?_, ?_⟩
      · exact lt_min (by omega) (by omega)
      · have hmin := min_le_left (pcb.mss - seg.len) n
        omega
    · exact .inl rfl

/-- The queue that `tcp_write` leaves, without the new segments. -/
theorem Holds.concatenated {s : ℤ} {pcb : Pcb ℤ} (h : pcb.Holds s pcb.sndLbb pcb.queue)
    (hopen : pcb.isOpen = true) (data : List Byte) :
    Tiles s (pcb.unacked ++ pcb.concatenated data) (pcb.sndLbb + pcb.concatLen data.length) ∧
      (∀ seg ∈ pcb.unacked ++ pcb.concatenated data,
        0 < seg.tcplen ∧ seg.len ≤ pcb.mss ∧ pcb.lastack < seg.seqEnd ∧ seg.fin = false) ∧
      clens (pcb.unacked ++ pcb.concatenated data) =
        pcb.sndQueuelen + if pcb.concatLen data.length = 0 then 0 else 1 := by
  have heach : ∀ seg ∈ pcb.queue,
      0 < seg.tcplen ∧ seg.len ≤ pcb.mss ∧ pcb.lastack < seg.seqEnd ∧ seg.fin = false :=
    fun seg hseg => ⟨(h.each seg hseg).1, (h.each seg hseg).2.1, (h.each seg hseg).2.2,
      h.fin hopen seg hseg⟩
  have hlen : ∀ seg ∈ pcb.unsent, seg.len ≤ pcb.mss :=
    fun seg hseg => (h.each seg (List.mem_append_right _ hseg)).2.1
  have hqueuelen : clens pcb.unacked + clens pcb.unsent = pcb.sndQueuelen := by
    rw [h.queuelen, queue, clens_append]
  rw [Pcb.concatenated]
  rcases concatLen_cases hlen h.mss.2 data.length with hk | ⟨last, hlast, hpos, hfits⟩
  · rw [hk]
    simp only [if_pos]
    exact ⟨by simpa [queue] using h.tiles, heach, by simpa using hqueuelen⟩
  · have hle := pcb.concatLen_le data.length
    have hne : pcb.concatLen data.length ≠ 0 := by omega
    simp only [if_neg hne]
    set f : Seg ℤ → Seg ℤ := fun s =>
      { s with data := s.data ++ data.take (pcb.concatLen data.length), clen := s.clen + 1 } with hf
    have hunsent : pcb.unsent ≠ [] := by
      rintro hnil
      simp [hnil] at hlast
    have hflen : ∀ x, (f x).len = x.len + pcb.concatLen data.length := by
      intro x
      simp only [hf, Seg.len, List.length_append, List.length_take]
      omega
    have hftcplen : ∀ x, (f x).tcplen = x.tcplen + pcb.concatLen data.length := by
      intro x
      rw [Seg.tcplen, Seg.tcplen, hflen]
      exact Nat.add_right_comm _ _ _
    refine ⟨?_, fun seg hseg => ?_, ?_⟩
    · rw [← mapLast_append f pcb.unacked hunsent]
      have hnil : pcb.queue ≠ [] := List.append_ne_nil_of_right_ne_nil _ hunsent
      exact h.tiles.mapLast hnil (fun _ => rfl) fun x _ => hftcplen x
    · rcases List.mem_append.1 hseg with hseg | hseg
      · exact heach seg (List.mem_append_left _ hseg)
      · rcases mem_mapLast hseg with hseg | ⟨x, hx, rfl⟩
        · exact heach seg (List.mem_append_right _ hseg)
        · obtain rfl : x = last := Option.some.inj (hx.symm.trans hlast)
          obtain ⟨hx1, hx2, hx3, hx4⟩ := heach x (List.mem_append_right _ (List.mem_of_getLast? hx))
          refine ⟨by rw [hftcplen]; omega, by rw [hflen]; omega, ?_, hx4⟩
          rw [Seg.seqEnd, hftcplen]
          rw [Seg.seqEnd, add_int] at hx3
          rw [add_int]
          push_cast
          change pcb.lastack < x.seqno + _
          omega
    · obtain ⟨xs, hxs⟩ : ∃ xs, pcb.unsent = xs ++ [last] :=
        ⟨_, (List.dropLast_append_getLast? last hlast).symm⟩
      rw [hxs, clens_append, clens_cons, clens_nil] at hqueuelen
      rw [hxs, mapLast_concat, clens_append, clens_append, clens_cons, clens_nil, ← hqueuelen]
      simp only [hf]
      omega

/-- The flag `PSH` of the last segment does not count. -/
theorem mapLast_psh {s top : ℤ} {q : List (Seg ℤ)} {P : Seg ℤ → Prop} (htiles : Tiles s q top)
    (heach : ∀ seg ∈ q, P seg) (hP : ∀ seg : Seg ℤ, P seg → P { seg with psh := true }) :
    Tiles s (mapLast (fun seg => { seg with psh := true }) q) top ∧
      (∀ seg ∈ mapLast (fun seg => { seg with psh := true }) q, P seg) ∧
      clens (mapLast (fun seg => { seg with psh := true }) q) = clens q := by
  rcases List.eq_nil_or_concat q with rfl | ⟨xs, x, rfl⟩
  · exact ⟨htiles, heach, rfl⟩
  · refine ⟨?_, fun seg hseg => ?_, ?_⟩
    · have hsame := htiles.mapLast (f := fun seg => { seg with psh := true }) (d := 0) (by simp)
        (fun _ => rfl) fun _ _ => rfl
      simpa using hsame
    · rcases mem_mapLast hseg with hseg | ⟨x', hx', rfl⟩
      · exact heach seg hseg
      · exact hP x' (heach x' (List.mem_of_getLast? hx'))
    · rw [List.concat_eq_append, mapLast_concat, clens_append, clens_append]
      rfl

theorem Holds.top_of_open {s top : ℤ} {pcb : Pcb ℤ} {q : List (Seg ℤ)} (h : pcb.Holds s top q)
    (hopen : pcb.isOpen = true) : top = pcb.sndLbb := by
  rcases h.top_eq with htop | ⟨hclosed, -⟩
  · exact htop
  · simp [hopen] at hclosed

theorem Good.tcpWrite {pcb : Pcb ℤ} (h : pcb.Good) (data : List Byte) (copy more : Bool)
    (alloc : ℕ → Bool) : (pcb.tcpWrite data copy more alloc).2.Good := by
  obtain ⟨s, top, hq, hw⟩ := h
  rcases tcpWrite_cases pcb data copy more alloc with
    ⟨-, heq | heq⟩ | ⟨segs, queuelen, hopen, hbuf, hlen, hnew, heq⟩
  · rw [heq]
    exact ⟨s, top, hq, hw⟩
  · rw [heq]
    exact ⟨s, top, hq.same ⟨rfl, id⟩, hw⟩
  · obtain rfl := hq.top_of_open hopen
    obtain ⟨hspec, hqueuelen, hmax⟩ := newSegs_spec hnew
    obtain ⟨htiles, heach, hclens⟩ := hq.concatenated hopen data
    have hk := pcb.concatLen_le data.length
    -- the whole new queue, before the flag `PSH` is set
    have hall : Tiles s (pcb.unacked ++ (pcb.concatenated data ++ segs)) (pcb.sndLbb + data.length) := by
      rw [← List.append_assoc]
      refine tiles_append.2 ⟨_, htiles, ?_⟩
      have hend : pcb.sndLbb + (pcb.concatLen data.length : ℤ) +
          ((data.drop (pcb.concatLen data.length)).length : ℕ) = pcb.sndLbb + data.length := by
        rw [List.length_drop]
        omega
      rw [← hend]
      exact hspec.tiles
    have hnewEach : ∀ seg ∈ segs,
        0 < seg.tcplen ∧ seg.len ≤ pcb.mss ∧ pcb.lastack < seg.seqEnd ∧ seg.fin = false := by
      intro seg hseg
      obtain ⟨hfin, -, hle, hpos⟩ := hspec.each seg hseg
      have hlow := hspec.tiles.le_seqno seg hseg
      have hlastack := hq.lastack_le.trans hq.sndNxt_le
      have hlenPos := hpos hq.mss.1
      refine ⟨by rw [Seg.tcplen]; omega, hle, ?_, hfin⟩
      simp only [Seg.seqEnd, Seg.tcplen, hfin, add_int, Bool.false_eq_true, if_false]
      push_cast
      omega
    have hallEach : ∀ seg ∈ pcb.concatenated data ++ segs,
        0 < seg.tcplen ∧ seg.len ≤ pcb.mss ∧ pcb.lastack < seg.seqEnd ∧ seg.fin = false := by
      intro seg hseg
      rcases List.mem_append.1 hseg with hseg | hseg
      · exact heach seg (List.mem_append_right _ hseg)
      · exact hnewEach seg hseg
    have hallClens : clens pcb.unacked + clens (pcb.concatenated data ++ segs) = queuelen := by
      rw [clens_append] at hclens
      rw [clens_append, hqueuelen, ← hclens, Nat.add_assoc]
      rfl
    have hqueuelenMax : queuelen ≤ sndQueuelenMax := by
      by_cases hnil : segs = []
      · have hle := hq.queuelen_le
        rw [hqueuelen, hnil]
        by_cases hdata : 0 < data.length
        · have hlt := hlen hdata
          split <;> simp <;> omega
        · have hzero : pcb.concatLen data.length = 0 := by omega
          simpa [hzero] using hle
      · exact hmax hnil
    obtain ⟨m, hunacked, hunsent⟩ := tiles_append.1 hall
    obtain ⟨hpshTiles, hpshEach, hpshClens⟩ := mapLast_psh hunsent hallEach fun _ h => h
    rw [heq]
    set unsent := if data = [] ∨ more = true then pcb.concatenated data ++ segs
      else mapLast (fun s => { s with psh := true }) (pcb.concatenated data ++ segs) with hdef
    have hU : Tiles m unsent (pcb.sndLbb + data.length) ∧
        (∀ seg ∈ unsent,
          0 < seg.tcplen ∧ seg.len ≤ pcb.mss ∧ pcb.lastack < seg.seqEnd ∧ seg.fin = false) ∧
        clens pcb.unacked + clens unsent = queuelen := by
      rw [hdef]
      split
      · exact ⟨hunsent, hallEach, hallClens⟩
      · exact ⟨hpshTiles, hpshEach, by rw [hpshClens, hallClens]⟩
    have hboth : ∀ seg ∈ pcb.unacked ++ unsent,
        0 < seg.tcplen ∧ seg.len ≤ pcb.mss ∧ pcb.lastack < seg.seqEnd ∧ seg.fin = false := by
      intro seg hseg
      rcases List.mem_append.1 hseg with hseg | hseg
      · exact heach seg (List.mem_append_left _ hseg)
      · exact hU.2.1 seg hseg
    refine ⟨s, pcb.sndLbb + data.length, ?_, hw⟩
    exact {
      tiles := tiles_append.2 ⟨m, hunacked, hU.1⟩
      start := hq.start
      each := fun seg hseg => ⟨(hboth seg hseg).1, (hboth seg hseg).2.1, (hboth seg hseg).2.2.1⟩
      lastack_le := hq.lastack_le
      sndNxt_le := hq.sndNxt_le.trans (by omega)
      top_eq := .inl rfl
      fin := fun _ seg hseg => (hboth seg hseg).2.2.2
      buf := by
        have hsum := hq.buf
        push_cast [hbuf]
        omega
      queuelen := by
        change queuelen = clens (pcb.unacked ++ unsent)
        rw [clens_append, hU.2.2]
      queuelen_le := hqueuelenMax
      mss := hq.mss
      cwnd := hq.cwnd
      ssthresh := hq.ssthresh
      sndWnd := hq.sndWnd }

/-! ### Closing -/

/-- The last segment of a connection that is no longer open gets the flag `FIN`. -/
theorem Good.setFin {pcb : Pcb ℤ} (h : pcb.Good) (hopen : pcb.isOpen = true)
    (hne : pcb.unsent ≠ []) {next : TcpState} (hnext : next ≠ .established ∧ next ≠ .closeWait) :
    { pcb with unsent := mapLast (fun s => { s with fin := true }) pcb.unsent, state := next }.Good := by
  obtain ⟨s, top, hq, hw⟩ := h
  obtain rfl := hq.top_of_open hopen
  set f : Seg ℤ → Seg ℤ := fun s => { s with fin := true } with hf
  have hclosed : ({ pcb with unsent := mapLast f pcb.unsent, state := next } : Pcb ℤ).isOpen = false := by
    rw [isOpen, decide_eq_false_iff_not]
    simpa using hnext
  have hnil : pcb.queue ≠ [] := List.append_ne_nil_of_right_ne_nil _ hne
  have hgrow : ∀ x ∈ pcb.queue, (f x).tcplen = x.tcplen + 1 := by
    intro x hx
    rw [Seg.tcplen, Seg.tcplen, hq.fin hopen x hx]
    rfl
  have hqueue : ({ pcb with unsent := mapLast f pcb.unsent, state := next } : Pcb ℤ).queue =
      mapLast f pcb.queue := (mapLast_append f pcb.unacked hne).symm
  refine ⟨s, pcb.sndLbb + (1 : ℕ), ?_, hw⟩
  rw [hqueue]
  have heach : ∀ seg ∈ mapLast f pcb.queue,
      0 < seg.tcplen ∧ seg.len ≤ pcb.mss ∧ pcb.lastack < seg.seqEnd := by
    intro seg hseg
    rcases mem_mapLast hseg with hseg | ⟨x, hx, rfl⟩
    · exact hq.each seg hseg
    · have hmem := List.mem_of_getLast? hx
      obtain ⟨-, hlen, hend⟩ := hq.each x hmem
      refine ⟨by rw [hgrow x hmem]; omega, hlen, ?_⟩
      rw [Seg.seqEnd, add_int] at hend
      rw [Seg.seqEnd, hgrow x hmem, add_int]
      change pcb.lastack < x.seqno + _
      push_cast
      omega
  exact {
    tiles := hq.tiles.mapLast hnil (fun _ => rfl) fun x hx => hgrow x (List.mem_of_getLast? hx)
    start := hq.start
    each := heach
    lastack_le := hq.lastack_le
    sndNxt_le := hq.sndNxt_le.trans (by simp)
    top_eq := .inr ⟨hclosed, by simp⟩
    fin := fun hop => by simp [hclosed] at hop
    buf := hq.buf
    queuelen := by
      obtain ⟨xs, x, hxs⟩ := (List.eq_nil_or_concat pcb.queue).resolve_left hnil
      have hlen := hq.queuelen
      rw [hxs, List.concat_eq_append] at hlen ⊢
      rw [mapLast_concat, clens_append]
      rw [clens_append] at hlen
      exact hlen
    queuelen_le := hq.queuelen_le
    mss := hq.mss
    cwnd := hq.cwnd
    ssthresh := hq.ssthresh
    sndWnd := hq.sndWnd }

/-- The control block after `tcp_enqueue_flags(pcb, TCP_FIN)`. -/
def withFin (pcb : Pcb ℤ) : Pcb ℤ :=
  { pcb with
    unsent := pcb.unsent ++ [⟨pcb.sndLbb, [], 1, true, false, false⟩]
    sndLbb := pcb.sndLbb + 1
    sndBuf := pcb.sndBuf - 1
    finFlag := true
    sndQueuelen := pcb.sndQueuelen + 1 }

/-- A segment with nothing but the flag `FIN`. -/
theorem Good.enqueueFin {pcb : Pcb ℤ} (h : pcb.Good) (hopen : pcb.isOpen = true)
    (hqueuelen : pcb.sndQueuelen < sndQueuelenMax) (hbuf : pcb.sndBuf ≠ 0) {next : TcpState}
    (hnext : next ≠ .established ∧ next ≠ .closeWait) :
    ({ pcb.withFin with state := next } : Pcb ℤ).Good := by
  obtain ⟨s, top, hq, hw⟩ := h
  obtain rfl := hq.top_of_open hopen
  set finSeg : Seg ℤ := ⟨pcb.sndLbb, [], 1, true, false, false⟩ with hfin
  have hqueue : pcb.unacked ++ (pcb.unsent ++ [finSeg]) = pcb.queue ++ [finSeg] :=
    (List.append_assoc _ _ _).symm
  have hend : finSeg.seqEnd = pcb.sndLbb + 1 := rfl
  have hlastack := hq.lastack_le.trans hq.sndNxt_le
  have hclosed : decide (next = .established ∨ next = .closeWait) = false := by
    simpa using hnext
  refine ⟨s, pcb.sndLbb + 1, ?_, hw⟩
  rw [queue, withFin]
  exact {
    tiles := by
      rw [hqueue]
      exact tiles_append.2 ⟨_, hq.tiles, rfl, hend⟩
    start := hq.start
    each := by
      rw [hqueue]
      intro seg hseg
      rcases List.mem_append.1 hseg with hseg | hseg
      · exact hq.each seg hseg
      · rw [List.mem_singleton.1 hseg, hend]
        exact ⟨Nat.one_pos, Nat.zero_le _, Int.lt_add_one_of_le hlastack⟩
    lastack_le := hq.lastack_le
    sndNxt_le := hq.sndNxt_le.trans (by simp)
    top_eq := .inl rfl
    fin := fun hop => by
      rw [isOpen, hclosed] at hop
      simp at hop
    buf := by
      have hsum := hq.buf
      push_cast [Nat.one_le_iff_ne_zero.2 hbuf]
      omega
    queuelen := by
      rw [hqueue, clens_append, ← hq.queuelen]
      rfl
    queuelen_le := hqueuelen
    mss := hq.mss
    cwnd := hq.cwnd
    ssthresh := hq.ssthresh
    sndWnd := hq.sndWnd }

/-- All that queueing a `FIN` does. -/
theorem tcpSendFin_cases (pcb : Pcb ℤ) (alloc : Bool) :
    ((pcb.tcpSendFin alloc).1 ≠ .ok ∧
      ((pcb.tcpSendFin alloc).2 = pcb ∨ (pcb.tcpSendFin alloc).2 = { pcb with nagleMemErr := true })) ∨
    (pcb.unsent ≠ [] ∧ pcb.tcpSendFin alloc =
      (.ok, { pcb with unsent := mapLast (fun s => { s with fin := true }) pcb.unsent })) ∨
    ((∀ seg, pcb.unsent.getLast? = some seg → seg.fin = true) ∧
      pcb.sndQueuelen < sndQueuelenMax ∧ pcb.sndBuf ≠ 0 ∧
      pcb.tcpSendFin alloc = (.ok, pcb.withFin)) := by
  have henqueue : ((pcb.tcpEnqueueFin alloc).1 ≠ .ok ∧
      ((pcb.tcpEnqueueFin alloc).2 = pcb ∨
        (pcb.tcpEnqueueFin alloc).2 = { pcb with nagleMemErr := true })) ∨
      (pcb.sndQueuelen < sndQueuelenMax ∧ pcb.sndBuf ≠ 0 ∧
        pcb.tcpEnqueueFin alloc = (.ok, pcb.withFin)) := by
    rw [tcpEnqueueFin]
    split
    · exact .inl ⟨by simp, .inr rfl⟩
    · rename_i hlen
      split
      · exact .inl ⟨by simp, .inl rfl⟩
      · rename_i hbuf
        split
        · exact .inl ⟨by simp, .inr rfl⟩
        · exact .inr ⟨not_le.1 hlen, hbuf, rfl⟩
  rw [tcpSendFin]
  split
  · rename_i seg hlast
    split
    · rename_i hfin
      rcases henqueue with hfail | ⟨hlen, hbuf, heq⟩
      · exact .inl hfail
      · refine .inr (.inr ⟨fun x hx => ?_, hlen, hbuf, heq⟩)
        rw [← Option.some.inj (hlast.symm.trans hx)]
        exact hfin
    · refine .inr (.inl ⟨fun hnil => ?_, rfl⟩)
      simp [hnil] at hlast
  · rename_i hnone
    rcases henqueue with hfail | ⟨hlen, hbuf, heq⟩
    · exact .inl hfail
    · exact .inr (.inr ⟨fun x hx => by simp [hnone] at hx, hlen, hbuf, heq⟩)

/-- All that closing does: nothing, or a `FIN` is queued and the state left. -/
theorem sendFinAndEnter_cases (pcb : Pcb ℤ) (next : TcpState) (alloc : Bool) :
    ((pcb.sendFinAndEnter next alloc).1 = pcb ∨
      (pcb.sendFinAndEnter next alloc).1 = { pcb with nagleMemErr := true }) ∨
    (pcb.unsent ≠ [] ∧ (pcb.sendFinAndEnter next alloc).1 =
      { pcb with
        unsent := mapLast (fun s => { s with fin := true }) pcb.unsent, state := next }) ∨
    ((∀ seg, pcb.unsent.getLast? = some seg → seg.fin = true) ∧
      pcb.sndQueuelen < sndQueuelenMax ∧ pcb.sndBuf ≠ 0 ∧
      (pcb.sendFinAndEnter next alloc).1 = { pcb.withFin with state := next }) := by
  have hcases := tcpSendFin_cases pcb alloc
  rw [Pcb.sendFinAndEnter]
  split
  · rename_i pcb' heq
    rw [heq] at hcases
    rcases hcases with ⟨hne, -⟩ | ⟨hne, hpcb⟩ | ⟨hfin, hlen, hbuf, hpcb⟩
    · exact absurd rfl hne
    · rw [(Prod.mk.inj hpcb).2]
      exact .inr (.inl ⟨hne, rfl⟩)
    · rw [(Prod.mk.inj hpcb).2]
      exact .inr (.inr ⟨hfin, hlen, hbuf, rfl⟩)
  · rename_i err pcb' hne heq
    rw [heq] at hcases
    rcases hcases with ⟨-, hpcb⟩ | ⟨-, hpcb⟩ | ⟨-, -, -, hpcb⟩
    · exact .inl hpcb
    · exact absurd (Prod.mk.inj hpcb).1 hne
    · exact absurd (Prod.mk.inj hpcb).1 hne

theorem Good.sendFinAndEnter {pcb : Pcb ℤ} (h : pcb.Good) (hopen : pcb.isOpen = true)
    {next : TcpState} (hnext : next ≠ .established ∧ next ≠ .closeWait) (alloc : Bool) :
    (pcb.sendFinAndEnter next alloc).1.Good := by
  rcases sendFinAndEnter_cases pcb next alloc with
    (heq | heq) | ⟨hne, heq⟩ | ⟨-, hlen, hbuf, heq⟩
  · rw [heq]
    exact h
  · rw [heq]
    exact h.same ⟨⟨rfl, id⟩, rfl, rfl⟩
  · rw [heq]
    exact h.setFin hopen hne hnext
  · rw [heq]
    exact h.enqueueFin hopen hlen hbuf hnext

end Pcb

end Tcp
end Lwip
