import FairCross.Commitments.Sha256
import FairCross.Library.SecureHash

/-!
# The hasher computes SHA-256

The streaming hasher keeps a buffer and a bit counter. On every message, taken in in any chunks, it
returns the digest of the padded message.
-/

namespace FairCross

open BigEndian BlockStream

namespace Sha256

/-! ## Words -/

/-- The words of a state as bit vectors. -/
def Words.toHashValue (s : Words) : SecureHash.HashValue where
  a := s.a.toBitVec
  b := s.b.toBitVec
  c := s.c.toBitVec
  d := s.d.toBitVec
  e := s.e.toBitVec
  f := s.f.toBitVec
  g := s.g.toBitVec
  h := s.h.toBitVec

theorem round_toHashValue (s : Words) (k m : UInt32) :
    (round s k m).toHashValue = SecureHash.round k.toBitVec m.toBitVec s.toHashValue := rfl

theorem init_toHashValue : init.state.toHashValue = SecureHash.initialValue := by
  unfold SecureHash.initialValue SecureHash.initialWord
  rw [SecureHash.primes_eq]
  decide +kernel

theorem roundConstants_eq :
    roundConstants = (List.range 64).map fun t => UInt32.ofBitVec (SecureHash.roundConstant t) := by
  unfold SecureHash.roundConstant
  rw [SecureHash.primes_eq]
  decide +kernel

/-! ## Compression -/

theorem take_four {l : List UInt8} (h : 4 ≤ l.length) :
    l.take 4 = [l.getD 0 0, l.getD 1 0, l.getD 2 0, l.getD 3 0] := by
  rcases l with - | ⟨b0, - | ⟨b1, - | ⟨b2, - | ⟨b3, l⟩⟩⟩⟩
  · simp at h
  · simp at h
  · simp at h
  · simp at h
  · rfl

/-- Word `t` of the block, below sixteen. -/
theorem blockWord_toBitVec {block : List UInt8} (hlen : block.length = 64) {t : ℕ} (ht : t < 16) :
    (blockWord block t).toBitVec = SecureHash.blockWord block t := by
  have hget : ∀ i, (block.drop (4 * t)).getD i 0 = block.getD (t * 4 + i) 0 := by
    intro i
    rw [List.getD_eq_getElem?_getD, List.getD_eq_getElem?_getD, List.getElem?_drop, Nat.mul_comm]
  rw [SecureHash.blockWord, take_four (by rw [List.length_drop]; omega), hget, hget, hget, hget,
    ofBytes_four]
  apply BitVec.eq_of_toNat_eq
  unfold blockWord
  simp

/-- The schedule extends the words of the block by the recurrence. -/
theorem schedule_eq {block : List UInt8} (hlen : block.length = 64) : schedule block =
    (List.range 64).map fun t => UInt32.ofBitVec (SecureHash.scheduleWord (SecureHash.blockWord block) t) := by
  generalize hw : (fun t => UInt32.ofBitVec (SecureHash.scheduleWord (SecureHash.blockWord block) t)) = w
  have hbase : (List.range 16).map (blockWord block) = (List.range 16).map w := by
    refine List.map_congr_left fun t ht => ?_
    rw [List.mem_range] at ht
    rw [← hw]
    apply UInt32.toBitVec_inj.mp
    show _ = SecureHash.scheduleWord (SecureHash.blockWord block) t
    rw [SecureHash.scheduleWord, if_pos ht, blockWord_toBitVec hlen ht]
  have hget : ∀ k i, i < k → ((List.range k).map w).getD i 0 = w i := by
    intro k i hi
    rw [List.getD_eq_getElem?_getD, List.getElem?_map, List.getElem?_range hi]
    rfl
  have hnext : ∀ k, 16 ≤ k → gamma1 (w (k - 2)) + w (k - 7) + gamma0 (w (k - 15)) + w (k - 16) = w k := by
    intro k hk
    rw [← hw]
    apply UInt32.toBitVec_inj.mp
    show _ = SecureHash.scheduleWord (SecureHash.blockWord block) k
    rw [SecureHash.scheduleWord, if_neg (by omega)]
    rfl
  have hextend : ∀ k, 16 ≤ k → extendSchedule ((List.range k).map w) = (List.range (k + 1)).map w := by
    intro k hk
    rw [extendSchedule, List.length_map, List.length_range, hget k _ (by omega), hget k _ (by omega),
      hget k _ (by omega), hget k _ (by omega), hnext k hk, List.range_succ, List.map_append]
    rfl
  have hfold : ∀ k, (List.range k).foldl (fun m _ => extendSchedule m) ((List.range 16).map w) =
      (List.range (16 + k)).map w := by
    intro k
    induction k with
    | zero => rfl
    | succ k ih =>
      rw [List.range_succ (n := k), List.foldl_append, ih, List.foldl_cons, List.foldl_nil,
        hextend _ (by omega), Nat.add_assoc]
  rw [schedule, hbase]
  exact hfold 48

theorem transform_toHashValue (s : Words) {block : List UInt8} (hlen : block.length = 64) :
    (transform s block).toHashValue = SecureHash.compress s.toHashValue block := by
  have hrounds : ∀ k, (((List.range k).map fun t => (UInt32.ofBitVec (SecureHash.roundConstant t),
      UInt32.ofBitVec (SecureHash.scheduleWord (SecureHash.blockWord block) t))).foldl
        (fun r km => round r km.1 km.2) s).toHashValue =
      SecureHash.rounds (SecureHash.blockWord block) s.toHashValue k := by
    intro k
    induction k with
    | zero => rfl
    | succ k ih =>
      rw [List.range_succ, List.map_append, List.foldl_append, SecureHash.rounds, ← ih]
      exact round_toHashValue _ _ _
  have hzip : roundConstants.zip (schedule block) = (List.range 64).map fun t =>
      (UInt32.ofBitVec (SecureHash.roundConstant t),
        UInt32.ofBitVec (SecureHash.scheduleWord (SecureHash.blockWord block) t)) := by
    rw [roundConstants_eq, schedule_eq hlen, List.zip_map']
  unfold transform SecureHash.compress
  rw [hzip, ← hrounds 64]
  generalize (List.foldl _ s _ : Words) = r
  simp only [Words.toHashValue, UInt32.toBitVec_add, BitVec.add_comm]

theorem wordBytes_eq (w : UInt32) : wordBytes w = beBytes 4 w.toBitVec.toNat := by
  have hbyte : ∀ k : ℕ, k < 32 → (w >>> UInt32.ofNat k).toUInt8 = UInt8.ofNat (w.toNat >>> k) := by
    intro k hk
    apply UInt8.toNat_inj.mp
    simp [Nat.mod_eq_of_lt hk]
  have h24 : (w >>> 24).toUInt8 = _ := hbyte 24 (by omega)
  have h16 : (w >>> 16).toUInt8 = _ := hbyte 16 (by omega)
  have h8 : (w >>> 8).toUInt8 = _ := hbyte 8 (by omega)
  have h0 : w.toUInt8 = UInt8.ofNat (w.toNat >>> 0) := by
    apply UInt8.toNat_inj.mp
    simp
  rw [wordBytes, h24, h16, h8, h0]
  rfl

theorem digest_bytes (s : Words) : s.digest.bytes = s.toHashValue.bytes := by
  unfold Words.digest SecureHash.HashValue.bytes Words.toHashValue
  simp only [wordBytes_eq, List.map_cons, List.map_nil, List.flatten_cons, List.flatten_nil,
    List.append_assoc, List.append_nil]

/-! ## The stream -/

/-- The state without the buffer, and the buffer. -/
def toStream (s : Sha256) : (Words × U64) × List UInt8 := ((s.state, s.bitLen), s.buffer)

/-- Compress one block and count its bits. -/
def compressBlock (p : Words × U64) (block : List UInt8) : Words × U64 :=
  (transform p.1 block, p.2 + 512)

theorem absorb_toStream (s : Sha256) (byte : UInt8) :
    (s.absorb byte).toStream = BlockStream.absorb 64 compressBlock s.toStream byte := by
  unfold Sha256.absorb BlockStream.absorb
  by_cases h : (s.buffer ++ [byte]).length = 64
  · rw [if_pos h]
    exact (if_pos h).symm
  · rw [if_neg h]
    exact (if_neg h).symm

theorem foldl_compressBlock (p : Words × U64) (l : List (List UInt8)) :
    l.foldl compressBlock p = (l.foldl transform p.1, p.2 + toU64 (512 * l.length)) := by
  induction l generalizing p with
  | nil =>
    have hbits : p.2 + toU64 (512 * ([] : List (List UInt8)).length) = p.2 := add_zero p.2
    rw [hbits]
    rfl
  | cons block l ih =>
    have hbits : p.2 + 512 + toU64 (512 * l.length) = p.2 + toU64 (512 * (block :: l).length) := by
      have h512 : (512 : U64) = toU64 512 := rfl
      rw [h512, List.length_cons]
      apply Fin.ext
      simp only [Fin.val_add, toU64_val]
      omega
    rw [List.foldl_cons, ih, List.foldl_cons, ← hbits]
    rfl

/-- What a fresh hasher holds after a message: the whole blocks are compressed and counted, the rest is
in the buffer. -/
theorem update_init (l : List UInt8) : ∃ full, l = full ++ (init.update l).buffer ∧ 64 ∣ full.length ∧
    (init.update l).buffer.length < 64 ∧
    (init.update l).state.toHashValue =
      (blocks 64 full).foldl SecureHash.compress SecureHash.initialValue ∧
    (init.update l).bitLen = toU64 (8 * full.length) := by
  have hstream : (init.update l).toStream =
      l.foldl (BlockStream.absorb 64 compressBlock) ((init.state, 0), []) :=
    (List.foldl_hom toStream fun s byte => (absorb_toStream s byte).symm).symm
  obtain ⟨full, hl, hfull, hlt, hfold⟩ := foldl_absorb (Nat.succ_pos 63) compressBlock (init.state, (0 : U64)) l
  rw [← hstream] at hl hlt hfold
  rw [foldl_compressBlock] at hfold
  refine ⟨full, hl, hfull, hlt, ?_, ?_⟩
  · have hstate : (init.update l).state = (blocks 64 full).foldl transform init.state :=
      congrArg Prod.fst hfold
    have hhom : ∀ (bs : List (List UInt8)) (s : Words), (∀ b ∈ bs, b.length = 64) →
        (bs.foldl transform s).toHashValue = bs.foldl SecureHash.compress s.toHashValue := by
      intro bs
      induction bs with
      | nil => exact fun s _ => rfl
      | cons b bs ih =>
        intro s hbs
        rw [List.foldl_cons, List.foldl_cons, ih _ fun c hc => hbs c (List.mem_cons_of_mem _ hc),
          transform_toHashValue s (hbs b (List.mem_cons_self ..))]
    rw [hstate, hhom _ _ fun b hb => length_of_mem_blocks hb, init_toHashValue]
  · have hbits : (init.update l).bitLen = 0 + toU64 (512 * (blocks 64 full).length) :=
      congrArg Prod.snd hfold
    obtain ⟨k, hk⟩ := hfull
    rw [hbits, zero_add, length_blocks, hk]
    congr 1
    omega

/-- The message, padded, is the whole blocks, the buffer and the padding. -/
theorem finalize_eq {l : List UInt8} (hlen : l.length < 2 ^ 61) :
    (init.update l).finalize.bytes = SecureHash.digest l := by
  obtain ⟨full, hl, hfull, hlt, hstate, hbits⟩ := update_init l
  generalize init.update l = s at hl hlt hstate hbits
  have hn : l.length % 64 = s.buffer.length := by
    have := congrArg List.length hl
    rw [List.length_append] at this
    omega
  have hlength : (LittleEndian.leBytes 8 ((s.bitLen + toU64 (s.buffer.length * 8) : U64) : ℕ)).reverse =
      beBytes 8 (8 * l.length) := by
    have hval : ((s.bitLen + toU64 (s.buffer.length * 8) : U64) : ℕ) = 8 * l.length := by
      have := congrArg List.length hl
      rw [List.length_append] at this
      rw [hbits, Fin.val_add, toU64_val, toU64_val]
      omega
    rw [hval]
    rfl
  have hpad : SecureHash.pad l = full ++ (s.buffer ++ SecureHash.padding l.length) := by
    rw [SecureHash.pad, ← List.append_assoc, ← hl]
  unfold Sha256.finalize SecureHash.digest
  rw [hpad, blocks_append (by omega) hfull, List.foldl_append, ← hstate]
  by_cases h56 : s.buffer.length < 56
  · -- the padding fits behind the buffer
    have hblock : s.buffer ++ SecureHash.padding l.length = s.buffer ++
        0x80 :: List.replicate (55 - s.buffer.length) 0 ++ beBytes 8 (8 * l.length) := by
      rw [SecureHash.padding, SecureHash.zeroBytes_of_lt (by omega), hn, List.append_assoc]
    have hlast : (s.buffer ++ 0x80 :: List.replicate (55 - s.buffer.length) 0 ++
        beBytes 8 (8 * l.length)).length = 64 := by
      simp
      omega
    rw [hblock, blocks_of_length (by omega) hlast]
    simp only [if_pos h56, hlength, digest_bytes]
    rw [transform_toHashValue s.state hlast]
    rfl
  · -- the length takes a block of its own
    have hblock : s.buffer ++ SecureHash.padding l.length =
        (s.buffer ++ 0x80 :: List.replicate (63 - s.buffer.length) 0) ++
          (List.replicate 56 0 ++ beBytes 8 (8 * l.length)) := by
      have hzeros : 119 - s.buffer.length = (63 - s.buffer.length) + 56 := by omega
      rw [SecureHash.padding, SecureHash.zeroBytes_of_le (by omega), hn, hzeros,
        ← List.replicate_append_replicate]
      simp
    have hfirst : (s.buffer ++ 0x80 :: List.replicate (63 - s.buffer.length) (0 : UInt8)).length = 64 := by
      simp
      omega
    have hlast : (List.replicate 56 (0 : UInt8) ++ beBytes 8 (8 * l.length)).length = 64 := by
      simp
    rw [hblock, blocks_append (by omega) (Dvd.intro 1 hfirst.symm), blocks_of_length (by omega) hfirst,
      blocks_of_length (by omega) hlast]
    simp only [if_neg h56, hlength, digest_bytes]
    rw [transform_toHashValue _ hlast, transform_toHashValue s.state hfirst]
    rfl

/-- **The hasher is SHA-256.** A fresh hasher that has taken in a message of less than 2^61 bytes, in
chunks of any lengths, returns the digest of the message. -/
theorem finalize_chunks (chunks : List (List UInt8)) (hlen : chunks.flatten.length < 2 ^ 61) :
    (chunks.foldl update init).finalize.bytes = SecureHash.digest chunks.flatten := by
  have hupdate : chunks.foldl update init = init.update chunks.flatten := (List.foldl_flatten ..).symm
  rw [hupdate, finalize_eq hlen]

/-- The chunks "a", "" and "bc". -/
theorem finalize_chunks_example :
    ([ascii ['a'], [], ascii ['b', 'c']].foldl update init).finalize.bytes =
      SecureHash.digest (ascii ['a', 'b', 'c']) :=
  finalize_chunks [ascii ['a'], [], ascii ['b', 'c']] (by decide)

end Sha256

end FairCross
