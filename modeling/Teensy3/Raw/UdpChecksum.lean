import Mathlib.Tactic
import Teensy3.Lib.Run
import Teensy3.Lib.ByteMem
import Teensy3.Lib.OnesComplement
import Teensy3.Raw.Checksum
import Teensy3.Raw.Sketch
import Teensy3.Raw.Udp

/-!
# The UDP checksum of the raw sketch

With `SW_UDP_CHKSUM` defined, `sendto` and `udp_blast` compute the checksum of the packet in
`prefab` before they send it.  `sendto` does so after the payload is in place.  `udp_blast` does so
once, before its loop, and each turn of the loop then writes a sequence number into the payload.

* `ChecksumValid f`: what a receiver checks, in network order;
* `udpSum m udplth`: the same sum as the machine forms it, and `checksumValid_iff`;
* `udpSum_finishHeader`: the checksum that both functions store is right for the payload that is
  there at the time;
* `udpSum_patch`: what becomes of the sum when the first word of the payload changes;
* `checksums_valid_iff`: which sequences of calls send valid checksums only.
-/

namespace Raw

open ByteMem OnesComplement Machine

/-! ### What a receiver checks -/

/-- Source and destination address, protocol and UDP length. -/
def pseudoHeader (f : List Byte) : List Byte :=
  read (mem f) 28 8 ++ ([0, 17] ++ read (mem f) 40 2)

/-- The checksum field is not zero, and the ones' complement sum over the pseudo-header and the UDP
packet is all ones. -/
def ChecksumValid (f : List Byte) : Prop :=
  load16 (mem f) 42 ≠ 0 ∧ fold (netSum (pseudoHeader f ++ f.drop 36)) = 65535

/-- The sum of a little-endian machine over the pseudo-header and a UDP packet of `udplth` bytes. -/
def udpSum (m : ℕ → Byte) (udplth : ℕ) : ℕ :=
  hostSum m 36 udplth + hostSum m 28 8 + 17 * 256 + (load16 m 40).toNat

theorem drop_eq_read {f : List Byte} {k : ℕ} (h : k ≤ f.length) :
    f.drop k = read (mem f) k (f.length - k) := by
  apply List.ext_getElem
  · rw [List.length_drop, length_read]
  · intro j hj _
    have hlt : k + j < f.length := by
      rw [List.length_drop] at hj
      omega
    rw [getElem_read, mem, List.getD_eq_getElem _ _ hlt, List.getElem_drop]

theorem checksumValid_iff {f : List Byte} (h : 36 ≤ f.length) :
    ChecksumValid f ↔
      load16 (mem f) 42 ≠ 0 ∧ udpSum (mem f) (f.length - 36) ≡ 0 [MOD 65535] := by
  have hsum : netSum (pseudoHeader f ++ f.drop 36) =
      netSum (read (mem f) 28 8) + (17 + netSum (read (mem f) 40 2)) +
        netSum (read (mem f) 36 (f.length - 36)) := by
    rw [pseudoHeader, drop_eq_read h, netSum_append (by simp), netSum_append (by simp),
      netSum_append (by simp)]
    rfl
  have h40 : hostSum (mem f) 40 2 = (load16 (mem f) 40).toNat := by
    simp [hostSum, wordSum]
  have hmod : netSum (pseudoHeader f ++ f.drop 36) ≡ 256 * udpSum (mem f) (f.length - 36)
      [MOD 65535] := by
    rw [hsum]
    calc netSum (read (mem f) 28 8) + (17 + netSum (read (mem f) 40 2)) +
          netSum (read (mem f) 36 (f.length - 36))
        ≡ 256 * hostSum (mem f) 28 8 + (256 * (17 * 256) + 256 * hostSum (mem f) 40 2) +
          256 * hostSum (mem f) 36 (f.length - 36) [MOD 65535] :=
          ((netSum_read _ _ _).add ((show 17 ≡ 256 * (17 * 256) [MOD 65535] by decide).add
            (netSum_read _ _ _))).add (netSum_read _ _ _)
      _ = 256 * udpSum (mem f) (f.length - 36) := by
          rw [udpSum, h40]
          ring
  unfold ChecksumValid
  rw [fold_eq_ones_iff, ← mul_256_modEq_zero (udpSum _ _)]
  refine and_congr_right fun _ => ⟨fun h0 => hmod.symm.trans h0.2, fun h0 => ⟨?_, hmod.trans h0⟩⟩
  omega

/-! ### The checksum that is stored -/

theorem swapBytes_eq {x : ℕ} (h : x < 65536) : swapBytes x = 256 * (x % 256) + x / 256 := by
  have hlow : x &&& 0xFF = x % 256 := Nat.and_two_pow_sub_one_eq_mod x 8
  have hhigh : (x &&& 0xFF00) >>> 8 = x / 256 := by
    rw [Nat.shiftRight_and_distrib, show 0xFF00 >>> 8 = 2 ^ 8 - 1 by rfl,
      Nat.and_two_pow_sub_one_eq_mod, Nat.shiftRight_eq_div_pow]
    omega
  rw [swapBytes, hlow, hhigh, ← Nat.shiftLeft_add_eq_or_of_lt (by omega), Nat.shiftLeft_eq]
  omega

/-- The two exchanges of bytes for an odd length cancel. -/
theorem swapBytes_swapBytes {x : ℕ} (h : x < 65536) : swapBytes (swapBytes x) = x := by
  rw [swapBytes_eq h, swapBytes_eq (by omega)]
  omega

/-- The two halves of a word. -/
theorem toNat_load32 (m : ℕ → Byte) (a : ℕ) :
    (load32 m a).toNat % 65536 + (load32 m a).toNat / 65536 = hostSum m a 4 := by
  have hlow : (load16 m a).toNat < 65536 := (load16 m a).isLt
  have hword : (load32 m a).toNat = 65536 * (load16 m (a + 2)).toNat + (load16 m a).toNat := by
    have hb := fun i => (m (a + i)).isLt
    have h0 : (m a).toNat < 256 := (m a).isLt
    rw [load32, BitVec.toNat_append, BitVec.toNat_append, BitVec.toNat_append, toNat_load16,
      toNat_load16]
    rw [← Nat.shiftLeft_add_eq_or_of_lt h0, ← Nat.shiftLeft_add_eq_or_of_lt (hb 1),
      ← Nat.shiftLeft_add_eq_or_of_lt (hb 2)]
    simp only [Nat.shiftLeft_eq, Nat.add_assoc, Nat.reduceAdd]
    omega
  rw [show hostSum m a 4 = (load16 m a).toNat + (load16 m (a + 2)).toNat from by
    simp [hostSum, wordSum], hword]
  omega

theorem hostSum_eight (m : ℕ → Byte) (a : ℕ) :
    hostSum m a 8 = hostSum m a 4 + hostSum m (a + 4) 4 := by
  simp [hostSum, wordSum, Nat.add_assoc]

theorem toNat_complement (acc : ℕ) : (complement acc).toNat = 65535 - fold acc := by
  rw [complement, BitVec.toNat_not, BitVec.toNat_ofNat, Nat.mod_eq_of_lt (fold_lt acc)]

/-- The checksum is the complement of the sum, if the length field is in place. -/
theorem inetChksumPseudo_modEq {m : ℕ → Byte} {udplth : ℕ} (hlt : udplth < 65536)
    (hlen : load16 m 40 = bswap16 (.ofNat 16 udplth)) :
    (inetChksumPseudo m 36 (load32 m 28) (load32 m 32) 17 (.ofNat 16 udplth)).toNat +
      udpSum m udplth ≡ 0 [MOD 65535] := by
  have hu : (BitVec.ofNat 16 udplth).toNat = udplth := by
    rw [BitVec.toNat_ofNat, Nat.mod_eq_of_lt hlt]
  have hproto : (bswap16 ((17 : Byte).setWidth 16)).toNat = 17 * 256 := by decide
  -- the sum that is complemented, with the UDP packet folded
  let acc := fold (hostSum m 36 udplth) + hostSum m 28 8 + 17 * 256 + (load16 m 40).toNat
  have hacc : inetChksumPseudo m 36 (load32 m 28) (load32 m 32) 17 (.ofNat 16 udplth) =
      complement acc := by
    unfold inetChksumPseudo
    have hchk : fold (chksum m 36 udplth) = fold (hostSum m 36 udplth) := by
      rw [fold_chksum, chksumLoop_eq m (by omega), Nat.zero_add]
    have h28 := toNat_load32 m 28
    have h32 := toNat_load32 m 32
    have h8 : hostSum m 28 8 = hostSum m 28 4 + hostSum m 32 4 := hostSum_eight m 28
    simp only [hu, hproto, hchk, ← hlen]
    congr 1
    split_ifs
    · rw [swapBytes_swapBytes (fold_lt _)]
      omega
    · omega
  have hmod : acc ≡ udpSum m udplth [MOD 65535] :=
    (((fold_modEq _).add_right _).add_right _).add_right _
  have hle := fold_lt acc
  rw [hacc, toNat_complement]
  calc 65535 - fold acc + udpSum m udplth
      ≡ 65535 - fold acc + fold acc [MOD 65535] :=
        (hmod.symm.trans (fold_modEq acc).symm).add_left _
    _ = 65535 := by omega
    _ ≡ 0 [MOD 65535] := by decide

/-! ### Changes to the packet -/

theorem udpSum_congr {m m' : ℕ → Byte} {udplth : ℕ} (hu : 6 ≤ udplth)
    (h : ∀ i, 28 ≤ i → i < 36 + udplth → m i = m' i) : udpSum m udplth = udpSum m' udplth := by
  unfold udpSum
  rw [hostSum_congr (a := 36) fun i hi => h (36 + i) (by omega) (by omega),
    hostSum_congr (a := 28) fun i hi => h (28 + i) (by omega) (by omega),
    load16_congr (h 40 (by omega) (by omega)) (h 41 (by omega) (by omega))]

/-- Replacing a half-word behind the length field. -/
theorem udpSum_store16 {m : ℕ → Byte} {k udplth : ℕ} (v : BitVec 16) (hk : 3 ≤ k)
    (hu : 2 * k + 2 ≤ udplth) :
    udpSum (store16 m (36 + 2 * k) v) udplth + (load16 m (36 + 2 * k)).toNat =
      udpSum m udplth + v.toNat := by
  have h36 := hostSum_store16 (m := m) (a := 36) v hu
  have h28 : hostSum (store16 m (36 + 2 * k) v) 28 8 = hostSum m 28 8 :=
    hostSum_congr fun i hi => store16_of_ne (by omega)
  have h40 : load16 (store16 m (36 + 2 * k) v) 40 = load16 m 40 :=
    load16_store16_of_ne (by omega)
  unfold udpSum
  rw [h28, h40]
  omega

/-- **The stored checksum is right** for the packet as it is when the checksum is computed. -/
theorem udpSum_finishHeader (m : ℕ → Byte) {bytes : ℕ} (hb : bytes ≤ 1472) :
    udpSum (finishHeader true m (bytes + 8)) (bytes + 8) ≡ 0 [MOD 65535] := by
  -- the template before its UDP checksum is stored
  let m₀ := store16 (cleared m (bytes + 8)) 26 (inetChksum (cleared m (bytes + 8)) 16 20)
  let c := inetChksumPseudo m₀ 36 (load32 m₀ 28) (load32 m₀ 32) 17 (.ofNat 16 (bytes + 8))
  have hlen : load16 m₀ 40 = bswap16 (.ofNat 16 (bytes + 8)) := by
    simp only [m₀, cleared]
    rw [load16_store16_of_ne (by omega), load16_store16_of_ne (by omega),
      load16_store16_of_ne (by omega), load16_store16_of_ne (by omega), load16_store16]
  have hzero : load16 m₀ 42 = 0 := by
    simp only [m₀, cleared]
    rw [load16_store16_of_ne (by omega), load16_store16]
  have hfirst := udpSum_store16 (m := m₀) (k := 3) c le_rfl (show 2 * 3 + 2 ≤ bytes + 8 by omega)
  have hc : c.toNat + udpSum m₀ (bytes + 8) ≡ 0 [MOD 65535] :=
    inetChksumPseudo_modEq (by omega) hlen
  have hsum : udpSum (store16 m₀ 42 c) (bytes + 8) ≡ 0 [MOD 65535] := by
    rw [hzero] at hfirst
    rw [show udpSum (store16 m₀ 42 c) (bytes + 8) = udpSum m₀ (bytes + 8) + c.toNat from hfirst,
      Nat.add_comm]
    exact hc
  have hfinish : finishHeader true m (bytes + 8) =
      if load16 (store16 m₀ 42 c) 42 = 0 then store16 (store16 m₀ 42 c) 42 0xffff
      else store16 m₀ 42 c := rfl
  rw [hfinish]
  by_cases h : load16 (store16 m₀ 42 c) 42 = 0
  · -- `0` and `0xffff` are the same number
    have hsecond := udpSum_store16 (m := store16 m₀ 42 c) (k := 3) 0xffff le_rfl
      (show 2 * 3 + 2 ≤ bytes + 8 by omega)
    rw [show 36 + 2 * 3 = 42 by rfl, h] at hsecond
    rw [if_pos h, show udpSum (store16 (store16 m₀ 42 c) 42 0xffff) (bytes + 8) =
      udpSum (store16 m₀ 42 c) (bytes + 8) + 65535 from hsecond]
    exact hsum.add (show 65535 ≡ 0 [MOD 65535] by decide)
  · rw [if_neg h]
    exact hsum

/-- A word is stored as its two halves. -/
theorem store32_eq (m : ℕ → Byte) (a : ℕ) (v : BitVec 32) :
    store32 m a v = store16 (store16 m a (v.extractLsb' 0 16)) (a + 2) (v.extractLsb' 16 16) := by
  have hbyte : ∀ s k, 8 * k + 8 ≤ 16 → byteOf (v.extractLsb' (8 * s) 16) k = byteOf v (s + k) := by
    intro s k hk
    apply BitVec.eq_of_getLsbD_eq
    intro i hi
    simp only [getLsbD_byteOf, BitVec.getLsbD_extractLsb', hi, decide_true, Bool.true_and,
      show 8 * k + i < 16 by omega, show 8 * s + (8 * k + i) = 8 * (s + k) + i by omega]
  funext i
  unfold store32 store16
  rw [show (0 : ℕ) = 8 * 0 from rfl, hbyte 0 0 (by omega), hbyte 0 1 (by omega),
    show (16 : ℕ) = 8 * 2 from rfl, hbyte 2 0 (by omega), hbyte 2 1 (by omega)]
  by_cases h0 : i = a
  · simp [h0, Nat.add_assoc]
  by_cases h1 : i = a + 1
  · simp [h1]
  by_cases h2 : i = a + 2
  · simp [h2]
  · simp [h0, h1, h2]

/-- The two halves of a word, added. -/
def halves (v : BitVec 32) : ℕ := (v.extractLsb' 0 16).toNat + (v.extractLsb' 16 16).toNat

/-- The first word of the payload, its halves added. -/
def payloadHalves (m : ℕ → Byte) : ℕ := (load16 m 44).toNat + (load16 m 46).toNat

/-- **Patching.** A change of the first word of the payload changes the sum. -/
theorem udpSum_patch (m : ℕ → Byte) (v : BitVec 32) {udplth : ℕ} (hu : 12 ≤ udplth) :
    udpSum (store32 m 44 v) udplth + payloadHalves m = udpSum m udplth + halves v := by
  have hlow := udpSum_store16 (m := m) (k := 4) (v.extractLsb' 0 16) (by omega)
    (show 2 * 4 + 2 ≤ udplth by omega)
  have hhigh := udpSum_store16 (m := store16 m 44 (v.extractLsb' 0 16)) (k := 5)
    (v.extractLsb' 16 16) (by omega) (show 2 * 5 + 2 ≤ udplth by omega)
  rw [show 36 + 2 * 4 = 44 by rfl] at hlow
  rw [show 36 + 2 * 5 = 46 by rfl, load16_store16_of_ne (by omega)] at hhigh
  rw [store32_eq, payloadHalves, halves, show 44 + 2 = 46 by rfl]
  omega

/-! ### The frames of one call -/

theorem checksumValid_read (m : ℕ → Byte) (bytes : ℕ) :
    ChecksumValid (read m 0 (44 + bytes)) ↔
      load16 m 42 ≠ 0 ∧ udpSum m (bytes + 8) ≡ 0 [MOD 65535] := by
  have hmem : ∀ i < 44 + bytes, mem (read m 0 (44 + bytes)) i = m i := fun i hi => mem_read hi
  rw [checksumValid_iff (by simp; omega), length_read, show 44 + bytes - 36 = bytes + 8 by omega,
    load16_congr (hmem 42 (by omega)) (hmem 43 (by omega)),
    udpSum_congr (by omega) fun i _ hi => hmem i (by omega)]

/-- The frame of `sendto` is valid. -/
theorem checksumValid_sendto (n : Node) (packet : List Byte) (sport dest dport : BitVec 32)
    (h : packet.length ≤ 1472) :
    ∃ f, (sendto true n packet sport dest dport).sent = n.sent ++ [f] ∧ ChecksumValid f := by
  let m := store16 (store16 (blit n.prefab 44 packet) 36 (bswap16 (sport.setWidth 16))) 38
    (bswap16 (dport.setWidth 16))
  refine ⟨read (finishHeader true m (packet.length + 8)) 0 (44 + packet.length), ?_, ?_⟩
  · simp only [sendto, outgoing]
    rw [show 14 + 2 + (20 + (packet.length + 8)) = 44 + packet.length by omega]
  · rw [checksumValid_read]
    refine ⟨fun h0 => ?_, udpSum_finishHeader m h⟩
    have := (finishHeader_udpChecksum true m (packet.length + 8)).1 h0
    exact absurd this (by decide)

theorem store32_store32 (m : ℕ → Byte) (a : ℕ) (v w : BitVec 32) :
    store32 (store32 m a v) a w = store32 m a w := by
  funext i
  unfold store32
  split_ifs <;> rfl

/-- The frames of the loop of `udp_blast`: one template, with one sequence number after another. -/
theorem blastLoop_sent (pktlth i k : ℕ) (n : Node) :
    (blastLoop pktlth i k n).sent = n.sent ++ (List.range k).map fun j =>
      read (store32 n.prefab 44 (bswap32 (.ofNat 32 (i + j)))) 0 pktlth := by
  induction k generalizing i n with
  | zero => simp [blastLoop]
  | succ k ih =>
    rw [blastLoop, ih, outgoing, List.range_succ_eq_map]
    simp only [List.map_cons, List.map_map, Nat.add_zero, List.append_assoc,
      List.singleton_append, store32_store32]
    congr 2
    apply List.map_congr_left
    intro j _
    rw [Function.comp_apply, Nat.succ_eq_add_one, Nat.add_assoc, Nat.add_comm 1 j]

/-- A frame of `udp_blast` is valid exactly if its sequence number adds as much to the sum as the
word that was in its place when the checksum was computed. -/
theorem checksumValid_blast {m : ℕ → Byte} {bytes : ℕ} (hb : 4 ≤ bytes ∧ bytes ≤ 1472)
    (v : BitVec 32) :
    ChecksumValid (read (store32 (finishHeader true m (bytes + 8)) 44 v) 0 (44 + bytes)) ↔
      halves v ≡ payloadHalves m [MOD 65535] := by
  have hpatch := udpSum_patch (finishHeader true m (bytes + 8)) v
    (show 12 ≤ bytes + 8 by omega)
  have hzero := udpSum_finishHeader m hb.2
  have hfield : load16 (store32 (finishHeader true m (bytes + 8)) 44 v) 42 ≠ 0 := by
    rw [load16_congr (store32_of_ne (by omega)) (store32_of_ne (by omega)), ne_eq,
      finishHeader_udpChecksum]
    decide
  have hsame : payloadHalves (finishHeader true m (bytes + 8)) = payloadHalves m := by
    have hkeep : ∀ i, 44 ≤ i → finishHeader true m (bytes + 8) i = m i := fun i hi =>
      finishHeader_frame _ _ _ (by omega)
    rw [payloadHalves, load16_congr (hkeep 44 (by omega)) (hkeep 45 (by omega)),
      load16_congr (hkeep 46 (by omega)) (hkeep 47 (by omega)), payloadHalves]
  rw [checksumValid_read, and_iff_right hfield, ← hsame]
  simp only [Nat.ModEq] at hzero ⊢
  omega

/-! ### Whole runs -/

/-- A call whose packets carry at least the sequence number of `udp_blast`. -/
abbrev LongCall := { c : SendCall // 4 ≤ c.bytes }

/-- The calls after which all checksums are right: any `sendto`, and an `udp_blast` of at most one
packet, if the word in the place of its sequence number `0` adds nothing to the sum. -/
def KeepsChecksum (n : Node) : SendCall → Prop
  | .sendto _ _ _ _ _ => True
  | .udpBlast pkts _ _ => pkts = 0 ∨ pkts = 1 ∧ payloadHalves n.prefab % 65535 = 0

theorem checksums_exec_iff (n : Node) (c : LongCall) :
    (∀ f ∈ (c.1.exec true n).sent, ChecksumValid f) ↔
      (∀ f ∈ n.sent, ChecksumValid f) ∧ KeepsChecksum n c.1 := by
  obtain ⟨c, hc⟩ := c
  cases c with
  | sendto packet sport dest dport h =>
    obtain ⟨f, hsent, hf⟩ := checksumValid_sendto n packet sport dest dport h
    simp only [SendCall.exec, KeepsChecksum, hsent, and_true]
    simp only [List.forall_mem_append, List.forall_mem_singleton, and_iff_left hf]
  | udpBlast pkts bytes h =>
    have hport : payloadHalves (store16 n.prefab 38 (bswap16 2000)) = payloadHalves n.prefab := by
      rw [payloadHalves, load16_store16_of_ne (by omega), load16_store16_of_ne (by omega),
        payloadHalves]
    have hbytes : 4 ≤ bytes ∧ bytes ≤ 1472 := ⟨hc, h⟩
    simp only [SendCall.exec, KeepsChecksum, udpBlast, blastLoop_sent, List.forall_mem_append,
      List.forall_mem_map, List.mem_range, Nat.zero_add,
      show 14 + 2 + (20 + (bytes + 8)) = 44 + bytes by omega,
      checksumValid_blast hbytes, hport]
    refine and_congr_right fun _ => ?_
    -- the sequence numbers `0` and `1` add `0` and `256`
    have h0 : halves (bswap32 (.ofNat 32 0)) = 0 := by decide
    have h1 : halves (bswap32 (.ofNat 32 1)) = 256 := by decide
    rcases pkts with _ | _ | pkts
    · simp
    · simp [h0, Nat.ModEq, eq_comm]
    · constructor
      · intro hall
        have hfirst := hall 0 (by omega)
        have hsecond := hall 1 (by omega)
        rw [h0, Nat.ModEq] at hfirst
        rw [h1, Nat.ModEq] at hsecond
        omega
      · intro hor
        omega

/-- **When the UDP checksums are valid.** Every frame that is sent in a run of `sendto` and
`udp_blast` calls carries a valid UDP checksum, if and only if no `udp_blast` of the run sends more
than one packet, nor a single one over a payload whose first word counts. -/
theorem checksums_valid_iff (myaddress : BitVec 32) (macaddr1 macaddr2 : BitVec 24)
    (cs : List LongCall) :
    let exec := fun (n : Node) (c : LongCall) => c.1.exec true n
    (∀ f ∈ (run exec (nodeInit myaddress macaddr1 macaddr2) cs).sent, ChecksumValid f) ↔
      Along exec (fun n c => KeepsChecksum n c.1) (nodeInit myaddress macaddr1 macaddr2) cs := by
  intro exec
  have hrun : ∀ n : Node, (∀ f ∈ (run exec n cs).sent, ChecksumValid f) ↔
      (∀ f ∈ n.sent, ChecksumValid f) ∧ Along exec (fun n c => KeepsChecksum n c.1) n cs := by
    induction cs with
    | nil => simp
    | cons c cs ih =>
      intro n
      rw [run_cons, ih, along_cons, show exec n c = c.1.exec true n from rfl,
        checksums_exec_iff, and_assoc]
  rw [hrun, and_iff_right]
  simp [nodeInit]

/-- The first `udp_blast` after the start, of one packet of 4 bytes: the template has the bytes
`09 00 00 00` where the sequence number `0` goes. -/
theorem blast_spoils_checksum :
    ¬ ∀ f ∈ (udpBlast true (nodeInit 0x1101A8C0 0x04E9E5 0x000001) 1 4).sent, ChecksumValid f := by
  intro h
  have hkeeps := ((checksums_exec_iff (nodeInit 0x1101A8C0 0x04E9E5 0x000001)
    ⟨.udpBlast 1 4 (by omega), le_rfl⟩).1 h).2
  exact absurd hkeeps (by simp only [KeepsChecksum]; decide)

end Raw
