import Mathlib.Algebra.BigOperators.Group.Finset.Basic
import Teensy3.Lwip.Etharp

/-!
# Looking for an entry of the ARP cache

* `sweep_spec`, `Best`, `findEntry_recycles`: which entry `find_entry` gives up for a new address;
* `findEntry_cases`: what `find_entry` can do, for the proofs that follow.
-/

namespace Lwip
namespace Etharp

open Function

/-! ### The loop of `find_entry` -/

section Sweep

variable {table : Fin arpTableSize → Entry} {ipaddr : IpAddr}

/-- The loop stops at an entry with the address, or has looked at all of them. -/
theorem sweep_spec (table : Fin arpTableSize → Entry) (ipaddr : IpAddr) (is : List (Fin arpTableSize))
    (c : Candidates) :
    (∃ i, (table i).state ≠ .empty ∧ (table i).ipaddr = ipaddr ∧ sweep table ipaddr is c = .inl i) ∨
    ((∀ i ∈ is, (table i).state ≠ .empty → (table i).ipaddr ≠ ipaddr) ∧
      sweep table ipaddr is c = .inr (is.foldl (fun c i => c.look i (table i)) c)) := by
  induction is generalizing c with
  | nil => exact .inr ⟨by simp, rfl⟩
  | cons i is ih =>
    rw [sweep]
    by_cases hmatch : (table i).state ≠ .empty ∧ (table i).ipaddr = ipaddr
    · rw [if_pos hmatch]
      exact .inl ⟨i, hmatch.1, hmatch.2, rfl⟩
    · rw [if_neg hmatch]
      rcases ih (c.look i (table i)) with hfound | ⟨hnone, heq⟩
      · exact .inl hfound
      · refine .inr ⟨?_, heq⟩
        intro j hj hstate
        rcases List.mem_cons.1 hj with rfl | hj
        · exact fun hip => hmatch ⟨hstate, hip⟩
        · exact hnone j hj hstate

/-- The kinds of entries that the loop keeps apart. -/
inductive Kind
  | empty
  | stable
  | pending
  | queue
  deriving DecidableEq

def Entry.kind (e : Entry) : Kind :=
  match e.state with
  | .empty => .empty
  | .stable => .stable
  | .pending => if e.q = none then .pending else .queue

/-- Of the entries `is`, one of the greatest age among those of a kind, and this age. -/
def Best (table : Fin arpTableSize → Entry) (k : Kind) (is : List (Fin arpTableSize))
    (o : Option (Fin arpTableSize)) (age : ℕ) : Prop :=
  match o with
  | none => age = 0 ∧ ∀ j ∈ is, (table j).kind ≠ k
  | some i => i ∈ is ∧ (table i).kind = k ∧ (table i).ctime = age ∧
      ∀ j ∈ is, (table j).kind = k → (table j).ctime ≤ age

theorem Best.skip {k : Kind} {is : List (Fin arpTableSize)} {o : Option (Fin arpTableSize)} {age : ℕ}
    (h : Best table k is o age) {i : Fin arpTableSize} (hk : (table i).kind ≠ k) :
    Best table k (is ++ [i]) o age := by
  unfold Best at *
  cases o with
  | none =>
    refine ⟨h.1, fun j hj => ?_⟩
    rcases List.mem_append.1 hj with hj | hj
    · exact h.2 j hj
    · rw [List.mem_singleton.1 hj]
      exact hk
  | some b =>
    obtain ⟨hmem, hkind, hage, hmax⟩ := h
    refine ⟨List.mem_append_left _ hmem, hkind, hage, fun j hj hjk => ?_⟩
    rcases List.mem_append.1 hj with hj | hj
    · exact hmax j hj hjk
    · rw [List.mem_singleton.1 hj] at hjk
      exact absurd hjk hk

/-- An entry of the kind takes the place of a younger one. -/
theorem Best.look {k : Kind} {is : List (Fin arpTableSize)} {o : Option (Fin arpTableSize)} {age : ℕ}
    (h : Best table k is o age) {i : Fin arpTableSize} (hk : (table i).kind = k) :
    Best table k (is ++ [i]) (if age ≤ (table i).ctime then some i else o)
      (if age ≤ (table i).ctime then (table i).ctime else age) := by
  by_cases hle : age ≤ (table i).ctime
  · rw [if_pos hle, if_pos hle]
    refine ⟨by simp, hk, rfl, fun j hj hjk => ?_⟩
    rcases List.mem_append.1 hj with hj | hj
    · unfold Best at h
      cases o with
      | none => exact absurd hjk (h.2 j hj)
      | some b => exact (h.2.2.2 j hj hjk).trans hle
    · rw [List.mem_singleton.1 hj]
  · rw [if_neg hle, if_neg hle]
    unfold Best at *
    cases o with
    | none => omega
    | some b =>
      obtain ⟨hmem, hkind, hage, hmax⟩ := h
      refine ⟨List.mem_append_left _ hmem, hkind, hage, fun j hj hjk => ?_⟩
      rcases List.mem_append.1 hj with hj | hj
      · exact hmax j hj hjk
      · rw [List.mem_singleton.1 hj]
        omega

/-- What the loop has found among the entries `is`. -/
structure Found (table : Fin arpTableSize → Entry) (is : List (Fin arpTableSize)) (c : Candidates) :
    Prop where
  empty : match c.empty with
    | none => ∀ j ∈ is, (table j).kind ≠ .empty
    | some i => (table i).kind = .empty
  stable : Best table .stable is c.oldStable c.ageStable
  pending : Best table .pending is c.oldPending c.agePending
  queue : Best table .queue is c.oldQueue c.ageQueue

theorem Found.skipEmpty {is : List (Fin arpTableSize)} {c : Candidates} (h : Found table is c)
    {i : Fin arpTableSize} (hk : (table i).kind ≠ .empty) :
    match c.empty with
    | none => ∀ j ∈ is ++ [i], (table j).kind ≠ .empty
    | some i => (table i).kind = .empty := by
  have hempty := h.empty
  split
  · rename_i hnone
    rw [hnone] at hempty
    intro j hj
    rcases List.mem_append.1 hj with hj | hj
    · exact hempty j hj
    · rw [List.mem_singleton.1 hj]
      exact hk
  · rename_i b hsome
    rw [hsome] at hempty
    exact hempty

theorem Found.look {is : List (Fin arpTableSize)} {c : Candidates} (h : Found table is c)
    (i : Fin arpTableSize) : Found table (is ++ [i]) (c.look i (table i)) := by
  unfold Candidates.look
  cases hstate : (table i).state with
  | empty =>
    have hk : (table i).kind = .empty := by simp [Entry.kind, hstate]
    have hrest : ∀ {k o age}, k ≠ .empty → Best table k is o age → Best table k (is ++ [i]) o age :=
      fun hne hbest => hbest.skip (by rw [hk]; exact hne.symm)
    dsimp only
    split
    · exact ⟨hk, hrest (by simp) h.stable, hrest (by simp) h.pending, hrest (by simp) h.queue⟩
    · rename_i hsome
      obtain ⟨b, hb⟩ := Option.ne_none_iff_exists'.1 hsome
      refine ⟨?_, hrest (by simp) h.stable, hrest (by simp) h.pending, hrest (by simp) h.queue⟩
      have hempty := h.empty
      rw [hb] at hempty ⊢
      exact hempty
  | stable =>
    have hk : (table i).kind = .stable := by simp [Entry.kind, hstate]
    have hne : (table i).kind ≠ .empty := by simp [hk]
    have hbest := h.stable.look hk
    have hpending := h.pending.skip (i := i) (by simp [hk])
    have hqueue := h.queue.skip (i := i) (by simp [hk])
    dsimp only
    by_cases hle : c.ageStable ≤ (table i).ctime
    · rw [if_pos hle, if_pos hle] at hbest
      rw [if_pos hle]
      exact ⟨h.skipEmpty hne, hbest, hpending, hqueue⟩
    · rw [if_neg hle, if_neg hle] at hbest
      rw [if_neg hle]
      exact ⟨h.skipEmpty hne, hbest, hpending, hqueue⟩
  | pending =>
    have hne : (table i).kind ≠ .empty := by
      unfold Entry.kind
      rw [hstate]
      dsimp only
      split <;> simp
    dsimp only
    by_cases hq : (table i).q = none
    · have hk : (table i).kind = .pending := by simp [Entry.kind, hstate, hq]
      have hbest := h.pending.look hk
      have hstable := h.stable.skip (i := i) (by simp [hk])
      have hqueue := h.queue.skip (i := i) (by simp [hk])
      rw [if_neg (not_not.2 hq)]
      by_cases hle : c.agePending ≤ (table i).ctime
      · rw [if_pos hle, if_pos hle] at hbest
        rw [if_pos hle]
        exact ⟨h.skipEmpty hne, hstable, hbest, hqueue⟩
      · rw [if_neg hle, if_neg hle] at hbest
        rw [if_neg hle]
        exact ⟨h.skipEmpty hne, hstable, hbest, hqueue⟩
    · have hk : (table i).kind = .queue := by simp [Entry.kind, hstate, hq]
      have hbest := h.queue.look hk
      have hstable := h.stable.skip (i := i) (by simp [hk])
      have hpending := h.pending.skip (i := i) (by simp [hk])
      rw [if_pos hq]
      by_cases hle : c.ageQueue ≤ (table i).ctime
      · rw [if_pos hle, if_pos hle] at hbest
        rw [if_pos hle]
        exact ⟨h.skipEmpty hne, hstable, hpending, hbest⟩
      · rw [if_neg hle, if_neg hle] at hbest
        rw [if_neg hle]
        exact ⟨h.skipEmpty hne, hstable, hpending, hbest⟩

/-- What the whole loop has found. -/
theorem found_sweep (table : Fin arpTableSize → Entry) :
    Found table (List.finRange arpTableSize)
      ((List.finRange arpTableSize).foldl (fun c i => c.look i (table i)) .none) := by
  have hloop : ∀ (is js : List (Fin arpTableSize)) (c : Candidates), Found table js c →
      Found table (js ++ is) (is.foldl (fun c i => c.look i (table i)) c) := by
    intro is
    induction is with
    | nil =>
      intro js c h
      rw [List.append_nil]
      exact h
    | cons i is ih =>
      intro js c h
      have hnext := ih (js ++ [i]) _ (h.look i)
      rwa [List.append_assoc] at hnext
  have hstart : Found table [] .none :=
    ⟨by simp [Candidates.none], ⟨rfl, by simp⟩, ⟨rfl, by simp⟩, ⟨rfl, by simp⟩⟩
  exact hloop _ [] _ hstart

end Sweep

/-! ### Which entry is given up -/

/-- The rank of an entry among those that a new address could take: empty ones first, then stable
ones, then those that wait for an answer, and last those that a packet waits on. -/
def Kind.rank : Kind → ℕ
  | .empty => 0
  | .stable => 1
  | .pending => 2
  | .queue => 3

theorem Best.not_mem_of_none {table : Fin arpTableSize → Entry} {k : Kind} {age : ℕ}
    (h : Best table k (List.finRange arpTableSize) none age) (j : Fin arpTableSize) :
    (table j).kind ≠ k :=
  h.2 j (List.mem_finRange j)

/-- If all entries rank at least as the kind `k`, the best one of that kind is what is given up. -/
theorem Best.victim {table : Fin arpTableSize → Entry} {k : Kind} {age : ℕ} {i : Fin arpTableSize}
    (h : Best table k (List.finRange arpTableSize) (some i) age)
    (hrank : ∀ j, k.rank ≤ (table j).kind.rank) (j : Fin arpTableSize) :
    (table i).kind.rank ≤ (table j).kind.rank ∧
      ((table j).kind = (table i).kind → (table j).ctime ≤ (table i).ctime) := by
  obtain ⟨-, hkind, hage, hmax⟩ := h
  refine ⟨by rw [hkind]; exact hrank j, fun hj => ?_⟩
  rw [hage]
  exact hmax j (List.mem_finRange j) (hj.trans hkind)

/-- The victim is one of the best kind there is and, among these, one of the greatest age. -/
theorem victim_spec {table : Fin arpTableSize → Entry} {c : Candidates}
    (h : Found table (List.finRange arpTableSize) c) (hempty : c.empty = none) :
    ∃ i, c.victim = some i ∧ ∀ j, (table i).kind.rank ≤ (table j).kind.rank ∧
      ((table j).kind = (table i).kind → (table j).ctime ≤ (table i).ctime) := by
  have hnone : ∀ j, (table j).kind ≠ .empty := by
    have hfound := h.empty
    rw [hempty] at hfound
    exact fun j => hfound j (List.mem_finRange j)
  have hstable := h.stable
  have hpending := h.pending
  have hqueue := h.queue
  unfold Candidates.victim
  cases hs : c.oldStable with
  | some i =>
    rw [hs] at hstable
    refine ⟨i, rfl, hstable.victim fun j => ?_⟩
    have hj := hnone j
    cases hk : (table j).kind <;> simp_all [Kind.rank]
  | none =>
    rw [hs] at hstable
    have hns := hstable.not_mem_of_none
    cases hp : c.oldPending with
    | some i =>
      rw [hp] at hpending
      refine ⟨i, rfl, hpending.victim fun j => ?_⟩
      have hj := hnone j
      have hj' := hns j
      cases hk : (table j).kind <;> simp_all [Kind.rank]
    | none =>
      rw [hp] at hpending
      have hnp := hpending.not_mem_of_none
      have hall : ∀ j, (table j).kind = .queue := by
        intro j
        have h1 := hnone j
        have h2 := hns j
        have h3 := hnp j
        cases hk : (table j).kind <;> simp_all
      cases hq : c.oldQueue with
      | some i =>
        rw [hq] at hqueue
        exact ⟨i, rfl, hqueue.victim fun j => by rw [hall j]⟩
      | none =>
        rw [hq] at hqueue
        exact absurd (hall ⟨0, by decide⟩) (hqueue.not_mem_of_none _)

namespace Host

@[simp] theorem setEntry_arpTable (h : Host) (i : Fin arpTableSize) (e : Entry) :
    (h.setEntry i e).arpTable = update h.arpTable i e := rfl

@[simp] theorem claim_arpTable (h : Host) (ipaddr : IpAddr) (i : Fin arpTableSize) :
    (h.claim ipaddr i).arpTable =
      update h.arpTable i { h.arpTable i with ipaddr := ipaddr, ctime := 0 } := rfl

@[simp] theorem freeEntry_arpTable (h : Host) (i : Fin arpTableSize) :
    (h.freeEntry i).arpTable = update h.arpTable i { h.arpTable i with q := none, state := .empty } := rfl

/-- No packet waits on an entry that is not pending. -/
def QueueOk (h : Host) : Prop := ∀ i, (h.arpTable i).q ≠ none → (h.arpTable i).state = .pending

/-- There is nothing to be freed in an empty entry. -/
theorem freeEntry_of_empty {h : Host} (hq : h.QueueOk) {i : Fin arpTableSize}
    (hempty : (h.arpTable i).state = .empty) : h.freeEntry i = h := by
  have hnone : (h.arpTable i).q = none := by
    by_contra hne
    have hpending := hq i hne
    rw [hempty] at hpending
    cases hpending
  have hentry : (⟨none, (h.arpTable i).ipaddr, (h.arpTable i).ethaddr, .empty, (h.arpTable i).ctime⟩ :
      Entry) = h.arpTable i := by rw [← hnone, ← hempty]
  simp only [freeEntry, setEntry, hnone, hentry, update_eq_self, Option.map_none, Option.toList_none,
    List.append_nil]

/-- An entry that a new address may take: none is of a better kind, or of the same kind and older. -/
def Victim (h : Host) (i : Fin arpTableSize) : Prop :=
  ∀ j, (h.arpTable i).kind.rank ≤ (h.arpTable j).kind.rank ∧
    ((h.arpTable i).kind ≠ .empty → (h.arpTable j).kind = (h.arpTable i).kind →
      (h.arpTable j).ctime ≤ (h.arpTable i).ctime)

theorem state_eq_empty_of_kind {e : Entry} (h : e.kind = .empty) : e.state = .empty := by
  unfold Entry.kind at h
  cases hstate : e.state with
  | empty => rfl
  | stable => simp [hstate] at h
  | pending =>
    rw [hstate] at h
    dsimp only at h
    split at h <;> simp at h

/-- What `find_entry` can do: it finds the address, or makes a new entry for it, or gives up. -/
theorem findEntry_cases (h : Host) (hq : h.QueueOk) (ipaddr : IpAddr) (tryHard findOnly : Bool) :
    (∃ i, (h.arpTable i).state ≠ .empty ∧ (h.arpTable i).ipaddr = ipaddr ∧
      h.findEntry ipaddr tryHard findOnly = (some i, h)) ∨
    ((∀ j, (h.arpTable j).state ≠ .empty → (h.arpTable j).ipaddr ≠ ipaddr) ∧
      ((findOnly = true ∨ tryHard = false) ∧ h.findEntry ipaddr tryHard findOnly = (none, h) ∨
        findOnly = false ∧ ∃ i, h.Victim i ∧
          h.findEntry ipaddr tryHard findOnly = (some i, (h.freeEntry i).claim ipaddr i))) := by
  have hfound := found_sweep h.arpTable
  unfold findEntry
  rcases sweep_spec h.arpTable ipaddr (List.finRange arpTableSize) .none with
    ⟨i, hstate, hip, heq⟩ | ⟨hnone, heq⟩
  · rw [heq]
    exact .inl ⟨i, hstate, hip, rfl⟩
  · rw [heq]
    refine .inr ⟨fun j => hnone j (List.mem_finRange j), ?_⟩
    set c : Candidates := (List.finRange arpTableSize).foldl
      (fun (c : Candidates) i => c.look i (h.arpTable i)) Candidates.none
    dsimp only
    split
    · rename_i hstop
      exact .inl ⟨hstop.imp id And.right, rfl⟩
    · rename_i hgo
      have honly : findOnly = false := by simpa using fun h => hgo (.inl h)
      refine .inr ⟨honly, ?_⟩
      have hempty := hfound.empty
      cases hc : c.empty with
      | some i =>
        rw [hc] at hempty
        refine ⟨i, fun j => ⟨by rw [hempty]; exact Nat.zero_le _, fun hne => absurd hempty hne⟩, ?_⟩
        rw [freeEntry_of_empty hq (state_eq_empty_of_kind hempty)]
      | none =>
        obtain ⟨i, hvictim, hbest⟩ := victim_spec hfound hc
        refine ⟨i, fun j => ⟨(hbest j).1, fun _ => (hbest j).2⟩, ?_⟩
        dsimp only
        rw [hvictim]

/-- **What `find_entry` gives up.**  With `ETHARP_FLAG_TRY_HARD` there is always an entry: the one
with the address or, if there is none, one that was empty; else the oldest stable one; else the
oldest one that waits for an answer; and only if packets wait on all of them the oldest of these,
whose packet is freed.  All other entries stay as they are. -/
theorem findEntry_recycles (h : Host) (hq : h.QueueOk) (ipaddr : IpAddr) :
    ∃ i h', h.findEntry ipaddr true false = (some i, h') ∧ (h'.arpTable i).ipaddr = ipaddr ∧
      (∀ j, j ≠ i → h'.arpTable j = h.arpTable j) ∧
      (((h.arpTable i).state ≠ .empty ∧ h' = h) ∨
        ((∀ j, (h.arpTable j).state ≠ .empty → (h.arpTable j).ipaddr ≠ ipaddr) ∧
          (h'.arpTable i).state = .empty ∧ h.Victim i ∧
          h'.freed = h.freed ++ ((h.arpTable i).q.map fun p => ((h.arpTable i).ipaddr, p)).toList)) := by
  rcases findEntry_cases h hq ipaddr true false with ⟨i, hstate, hip, heq⟩ | ⟨hnone, hnew⟩
  · exact ⟨i, h, heq, hip, fun _ _ => rfl, .inl ⟨hstate, rfl⟩⟩
  · rcases hnew with ⟨hstop, -⟩ | ⟨-, i, hvictim, heq⟩
    · simp at hstop
    · refine ⟨i, _, heq, by simp, fun j hj => by simp [hj], .inr ⟨hnone, by simp, hvictim, rfl⟩⟩

end Host

end Etharp
end Lwip
