import Teensy3.Lwip.TcpConn

/-!
# Queues of segments

With unbounded sequence numbers (`ℤ`), segments in a queue follow each other without a gap.

* `Tiles`: segments that follow each other, with what appending, dropping from the front and
  changing the last one do to them;
* `newSegs_spec`: what `tcp_write` makes of its data;
* `clens`: the pbufs of a queue.
-/

namespace Lwip
namespace Tcp

open SeqNo

/-! ### Segments without gaps -/

/-- The segments follow each other from `s` up to `e`. -/
def Tiles : ℤ → List (Seg ℤ) → ℤ → Prop
  | s, [], e => s = e
  | s, seg :: segs, e => seg.seqno = s ∧ Tiles seg.seqEnd segs e

theorem tiles_append {s e : ℤ} {xs ys : List (Seg ℤ)} :
    Tiles s (xs ++ ys) e ↔ ∃ m, Tiles s xs m ∧ Tiles m ys e := by
  induction xs generalizing s with
  | nil => exact ⟨fun h => ⟨s, rfl, h⟩, fun ⟨m, hm, h⟩ => hm ▸ h⟩
  | cons seg xs ih =>
    simp only [List.cons_append, Tiles, ih]
    constructor
    · rintro ⟨hs, m, hxs, hys⟩
      exact ⟨m, ⟨hs, hxs⟩, hys⟩
    · rintro ⟨m, ⟨hs, hxs⟩, hys⟩
      exact ⟨hs, m, hxs, hys⟩

theorem Tiles.le {s e : ℤ} {segs : List (Seg ℤ)} (h : Tiles s segs e) : s ≤ e := by
  induction segs generalizing s with
  | nil => exact le_of_eq h
  | cons seg segs ih =>
    have hend := ih h.2
    have hseqno := h.1
    simp only [Seg.seqEnd, add_int] at hend
    omega

theorem Tiles.last {s e : ℤ} {segs : List (Seg ℤ)} {seg : Seg ℤ} (h : Tiles s segs e)
    (hlast : segs.getLast? = some seg) : seg.seqEnd = e := by
  induction segs generalizing s with
  | nil => simp at hlast
  | cons x segs ih =>
    cases segs with
    | nil =>
      obtain rfl : x = seg := by simpa using hlast
      exact h.2
    | cons y segs => exact ih h.2 (by simpa using hlast)

theorem Tiles.seqEnd_le {s e : ℤ} {segs : List (Seg ℤ)} (h : Tiles s segs e) :
    ∀ seg ∈ segs, seg.seqEnd ≤ e := by
  induction segs generalizing s with
  | nil => simp
  | cons x segs ih =>
    intro seg hseg
    rcases List.mem_cons.1 hseg with rfl | hseg
    · exact h.2.le
    · exact ih h.2 seg hseg

theorem Tiles.le_seqno {s e : ℤ} {segs : List (Seg ℤ)} (h : Tiles s segs e) :
    ∀ seg ∈ segs, s ≤ seg.seqno := by
  induction segs generalizing s with
  | nil => simp
  | cons x segs ih =>
    have hx : s ≤ x.seqEnd := by
      have hseqno := h.1
      simp only [Seg.seqEnd, add_int]
      omega
    intro seg hseg
    rcases List.mem_cons.1 hseg with rfl | hseg
    · exact h.1.ge
    · exact hx.trans (ih h.2 seg hseg)

/-- Segments behind one that goes beyond `a` go beyond it too. -/
theorem Tiles.lt_seqEnd {s e a : ℤ} {seg : Seg ℤ} {segs : List (Seg ℤ)}
    (h : Tiles s (seg :: segs) e) (ha : a < seg.seqEnd) : ∀ x ∈ seg :: segs, a < x.seqEnd := by
  intro x hx
  rcases List.mem_cons.1 hx with rfl | hx
  · exact ha
  · have hle := h.2.le_seqno x hx
    have hend : x.seqno ≤ x.seqEnd := by simp [Seg.seqEnd]
    omega

/-- The whole segment is acknowledged by `a`. -/
def Seg.ackedBy (a : ℤ) (seg : Seg ℤ) : Bool := leq seg.seqEnd a

theorem Seg.ackedBy_iff {a : ℤ} {seg : Seg ℤ} : seg.ackedBy a = true ↔ seg.seqEnd ≤ a := leq_int

/-- Without the segments that `a` acknowledges. -/
theorem Tiles.dropWhile {s e a : ℤ} {segs : List (Seg ℤ)} (h : Tiles s segs e) (hs : s ≤ a) :
    (∃ s' ≤ a, Tiles s' (segs.dropWhile (Seg.ackedBy a)) e) ∧
      ∀ seg ∈ segs.dropWhile (Seg.ackedBy a), a < seg.seqEnd := by
  induction segs generalizing s with
  | nil => exact ⟨⟨s, hs, h⟩, by simp⟩
  | cons x segs ih =>
    by_cases hx : x.seqEnd ≤ a
    · rw [List.dropWhile_cons_of_pos (Seg.ackedBy_iff.2 hx)]
      exact ih h.2 hx
    · rw [List.dropWhile_cons_of_neg (fun hle => hx (Seg.ackedBy_iff.1 hle))]
      exact ⟨⟨s, hs, h⟩, h.lt_seqEnd (not_le.1 hx)⟩

/-- Dropping from the first part and then from the second one is dropping from the whole. -/
theorem Tiles.dropWhile_append {s e a : ℤ} {xs ys : List (Seg ℤ)} (h : Tiles s (xs ++ ys) e) :
    (xs ++ ys).dropWhile (Seg.ackedBy a) =
      xs.dropWhile (Seg.ackedBy a) ++ ys.dropWhile (Seg.ackedBy a) := by
  induction xs generalizing s with
  | nil => simp
  | cons x xs ih =>
    by_cases hx : x.seqEnd ≤ a
    · rw [List.cons_append, List.dropWhile_cons_of_pos (Seg.ackedBy_iff.2 hx),
        List.dropWhile_cons_of_pos (Seg.ackedBy_iff.2 hx)]
      exact ih h.2
    · have hneg : ¬ x.ackedBy a = true := fun hle => hx (Seg.ackedBy_iff.1 hle)
      have hys : ys.dropWhile (Seg.ackedBy a) = ys := by
        cases ys with
        | nil => rfl
        | cons y ys =>
          have hy := h.lt_seqEnd (not_le.1 hx) y (by simp)
          exact List.dropWhile_cons_of_neg fun hle => absurd (Seg.ackedBy_iff.1 hle) (not_le.2 hy)
      rw [List.cons_append, List.dropWhile_cons_of_neg hneg, List.dropWhile_cons_of_neg hneg, hys,
        List.cons_append]

/-! ### Changing the last segment -/

theorem mapLast_append {α : Type} (f : α → α) (xs : List α) {ys : List α} (hys : ys ≠ []) :
    mapLast f (xs ++ ys) = xs ++ mapLast f ys := by
  induction xs with
  | nil => rfl
  | cons x xs ih =>
    obtain ⟨z, zs, hz⟩ := List.exists_cons_of_ne_nil (List.append_ne_nil_of_right_ne_nil xs hys)
    rw [List.cons_append, hz, mapLast, ← hz, ih, List.cons_append]

theorem mapLast_concat {α : Type} (f : α → α) (xs : List α) (x : α) :
    mapLast f (xs ++ [x]) = xs ++ [f x] :=
  mapLast_append f xs (by simp)

theorem mem_mapLast {α : Type} {f : α → α} {xs : List α} {y : α} (h : y ∈ mapLast f xs) :
    y ∈ xs ∨ ∃ x, xs.getLast? = some x ∧ y = f x := by
  rcases List.eq_nil_or_concat xs with rfl | ⟨xs, x, rfl⟩
  · simp [mapLast] at h
  · rw [List.concat_eq_append, mapLast_concat, List.mem_append, List.mem_singleton] at h
    rw [List.concat_eq_append]
    rcases h with h | h
    · exact .inl (List.mem_append_left _ h)
    · exact .inr ⟨x, by simp, h⟩

/-- The last segment grows by `d`. -/
theorem Tiles.mapLast {s e : ℤ} {segs : List (Seg ℤ)} {f : Seg ℤ → Seg ℤ} {d : ℕ}
    (h : Tiles s segs e) (hne : segs ≠ []) (hseqno : ∀ x, (f x).seqno = x.seqno)
    (hlen : ∀ x, segs.getLast? = some x → (f x).tcplen = x.tcplen + d) :
    Tiles s (mapLast f segs) (e + d) := by
  rcases List.eq_nil_or_concat segs with rfl | ⟨segs, x, rfl⟩
  · exact absurd rfl hne
  · rw [List.concat_eq_append] at h hlen ⊢
    rw [mapLast_concat]
    obtain ⟨m, hsegs, hx⟩ := tiles_append.1 h
    refine tiles_append.2 ⟨m, hsegs, (hseqno x).trans hx.1, ?_⟩
    have hxe : x.seqEnd = e := hx.2
    have hgrow := hlen x (by simp)
    simp only [Tiles, Seg.seqEnd, add_int, hseqno, hgrow] at hxe ⊢
    push_cast
    omega

/-- What `tcp_write` makes of the data that does not fit into the last segment. -/
structure NewSegs (mss clen : ℕ) (s : ℤ) (data : List Byte) (segs : List (Seg ℤ)) : Prop where
  tiles : Tiles s segs (s + data.length)
  data : segs.flatMap Seg.data = data
  each : ∀ seg ∈ segs, seg.fin = false ∧ seg.clen = clen ∧ seg.len ≤ mss ∧ (0 < mss → 0 < seg.len)

theorem newSegs_spec {mss : ℕ} {copy : Bool} {alloc : ℕ → Bool} {turns : ℕ} {s : ℤ}
    {data : List Byte} {queuelen queuelen' : ℕ} {segs : List (Seg ℤ)}
    (h : newSegs mss copy alloc turns s data queuelen = some (segs, queuelen')) :
    NewSegs mss (newClen copy) s data segs ∧
      queuelen' = queuelen + (segs.map Seg.clen).sum ∧
      (segs ≠ [] → queuelen' ≤ sndQueuelenMax) := by
  induction turns generalizing s data queuelen segs with
  | zero =>
    cases data with
    | nil =>
      obtain ⟨rfl, rfl⟩ := Prod.mk.inj (Option.some.inj h)
      exact ⟨⟨by simp [Tiles], rfl, by simp⟩, rfl, by simp⟩
    | cons b data => simp [newSegs] at h
  | succ turns ih =>
    cases data with
    | nil =>
      obtain ⟨rfl, rfl⟩ := Prod.mk.inj (Option.some.inj h)
      exact ⟨⟨by simp [Tiles], rfl, by simp⟩, rfl, by simp⟩
    | cons b data =>
      rw [newSegs] at h
      split at h
      · rename_i halloc
        dsimp only at h
        split at h
        · simp at h
        · rename_i rest q hrest
          obtain ⟨rfl, rfl⟩ := Prod.mk.inj (Option.some.inj h)
          obtain ⟨hnew, hq, hmax⟩ := ih hrest
          set n := min mss (b :: data).length with hn
          have hlen : ((b :: data).take n).length = n := by
            rw [List.length_take]
            omega
          refine ⟨⟨⟨rfl, ?_⟩, ?_, ?_⟩, ?_, fun _ => ?_⟩
          · have htiles := hnew.tiles
            rw [List.length_drop] at htiles
            have hadd : s + (n : ℤ) + (((b :: data).length - n : ℕ) : ℤ) = s + (b :: data).length := by
              omega
            simp only [add_int, hadd] at htiles
            simpa [Seg.seqEnd, Seg.tcplen, Seg.len, hlen] using htiles
          · rw [List.flatMap_cons, hnew.data]
            exact List.take_append_drop n _
          · intro seg hseg
            rcases List.mem_cons.1 hseg with rfl | hseg
            · refine ⟨rfl, rfl, ?_, fun hmss => ?_⟩
              · rw [Seg.len, hlen]
                exact min_le_left _ _
              · rw [Seg.len, hlen, hn, List.length_cons]
                omega
            · exact hnew.each seg hseg
          · rw [hq, List.map_cons, List.sum_cons, Nat.add_assoc]
          · cases rest with
            | nil =>
              rw [hq]
              simpa using halloc.2
            | cons => exact hmax (by simp)
      · simp at h

/-! ### Pbufs -/

/-- The pbufs of a queue. -/
def clens (q : List (Seg ℤ)) : ℕ := (q.map Seg.clen).sum

@[simp] theorem clens_nil : clens [] = 0 := rfl

@[simp] theorem clens_cons (seg : Seg ℤ) (q : List (Seg ℤ)) : clens (seg :: q) = seg.clen + clens q :=
  List.sum_cons

@[simp] theorem clens_append (xs ys : List (Seg ℤ)) : clens (xs ++ ys) = clens xs + clens ys := by
  rw [clens, List.map_append, List.sum_append, clens, clens]

end Tcp
end Lwip
