import FairCross.Library.Decimal
import FairCross.Proof.Verifier

/-!
# What the format check accepts

The verifier reads the count of a certificate with `std::from_chars`, which takes any digits. The
certificates the prover prints are those without zeros in front of the count.
-/

namespace FairCross

namespace SingleBatchVerifier

/-! ## Counts -/

/-- A digit survives as a byte. -/
theorem charOf_ascii {c : Char} (h : c.isDigit = true) :
    Char.ofNat (UInt8.ofNat c.toNat).toNat = c := by
  have hlt : c.toNat < 256 := by
    simp only [Char.isDigit, Bool.and_eq_true, decide_eq_true_eq] at h
    have := h.2
    rw [UInt32.le_iff_toNat_le] at this
    have h57 : '9'.val.toNat = 57 := rfl
    show c.val.toNat < 256
    omega
  rw [UInt8.toNat_ofNat_of_lt' hlt, Char.ofNat_toNat]

theorem digits_ascii {text : List Char} (h : ∀ c ∈ text, c.isDigit = true) :
    (ascii text).map (fun b => Char.ofNat b.toNat) = text := by
  rw [ascii, List.map_map]
  exact (List.map_congr_left fun c hc => charOf_ascii (h c hc)).trans (List.map_id text)

/-- What is read as a count: digits of a number that is not zero and fits. -/
structure IsCount (text : List UInt8) : Prop where
  ne_nil : text ≠ []
  digits : ∀ b ∈ text, isDigit b = true
  pos : 0 < digitsValue text
  lt : digitsValue text < 2 ^ 64

/-- A count is read to its end. -/
theorem fromChars_isCount {text : List UInt8} :
    (∃ count, fromChars text = some (count, []) ∧ count ≠ 0) ↔ IsCount text := by
  unfold fromChars
  constructor
  · rintro ⟨count, h, hne⟩
    dsimp only at h
    split_ifs at h with hnil hlt
    obtain ⟨rfl, hrest⟩ := Prod.mk.inj (Option.some.inj h)
    have hdigits := List.dropWhile_eq_nil_iff.mp hrest
    have htake := List.takeWhile_eq_self_iff.mpr hdigits
    rw [htake] at hnil hlt hne
    refine ⟨hnil, hdigits, Nat.pos_of_ne_zero fun hzero => hne ?_, not_le.mp hlt⟩
    rw [hzero]
    rfl
  · rintro ⟨hne, hdigits, hpos, hlt⟩
    rw [List.takeWhile_eq_self_iff.mpr hdigits, List.dropWhile_eq_nil_iff.mpr hdigits, if_neg hne,
      if_neg (not_le.mpr hlt)]
    refine ⟨_, rfl, fun hzero => ?_⟩
    have := congrArg Fin.val hzero
    rw [toU64_val, Nat.mod_eq_of_lt hlt] at this
    exact hpos.ne' this

/-- A number that is printed is a count. -/
theorem isCount_toDigits {n : ℕ} (hpos : 0 < n) (hn : n < 2 ^ 64) :
    IsCount (ascii (Nat.toDigits 10 n)) := by
  have hdigit : ∀ c ∈ Nat.toDigits 10 n, c.isDigit = true := fun c hc =>
    Nat.isDigit_of_mem_toDigits (by omega) le_rfl hc
  have hvalue : digitsValue (ascii (Nat.toDigits 10 n)) = n := by
    rw [digitsValue, digits_ascii hdigit, Nat.ofDigitChars_ten_toDigits]
  refine ⟨fun h => Nat.toDigits_ne_nil (List.map_eq_nil_iff.mp h), fun b hb => ?_, ?_, ?_⟩
  · obtain ⟨c, hc, rfl⟩ := List.mem_map.mp hb
    rw [isDigit, charOf_ascii (hdigit c hc)]
    exact hdigit c hc
  · rwa [hvalue]
  · rwa [hvalue]

/-! ## Certificates -/

section Certificate

variable {D : Type} [DecidableEq D] {publicInputs : BatchProofPublicInputs D}

theorem certificate_eq (n : ℕ) : SingleBatchProver.certificate n 5 =
    certificatePrefix ++ ascii (Nat.toDigits 10 n) ++ certificateSuffix := by
  have hsuffix : certificateSuffix = ascii ":public_inputs_len=".toList ++ ascii (Nat.toDigits 10 5) ++
      ascii ":status=SAT".toList := by decide
  rw [hsuffix, SingleBatchProver.certificate, certificatePrefix]
  simp only [List.append_assoc]

/-- What stands between the two texts. -/
theorem countText_eq (front text back : List UInt8) : ((front ++ text ++ back).drop front.length).take
    ((front ++ text ++ back).length - front.length - back.length) = text := by
  rw [List.append_assoc, List.drop_left]
  refine List.take_left' ?_
  simp only [List.length_append]
  omega

/-- A string that starts with one text and ends with another, and is longer than both together. -/
theorem between_iff {front back bytes : List UInt8} :
    (front.isPrefixOf bytes = true ∧ back.isSuffixOf bytes = true ∧
      front.length + back.length < bytes.length) ↔
    ∃ text, bytes = front ++ text ++ back ∧ text ≠ [] := by
  rw [List.isPrefixOf_iff_prefix, List.isSuffixOf_iff_suffix]
  constructor
  · rintro ⟨⟨t, rfl⟩, hsuffix, hlen⟩
    rw [List.length_append] at hlen
    obtain ⟨text, rfl⟩ := List.suffix_of_suffix_length_le hsuffix (List.suffix_append front t) (by omega)
    refine ⟨text, (List.append_assoc ..).symm, ?_⟩
    rintro rfl
    simp at hlen
  · rintro ⟨text, rfl, hne⟩
    have hpos := List.length_pos_iff.mpr hne
    refine ⟨?_, List.suffix_append .., ?_⟩
    · rw [List.append_assoc]
      exact List.prefix_append ..
    · simp only [List.length_append]
      omega

/-- **What the format check accepts.** -/
theorem verify_eq_ok {bytes : List UInt8} : verify publicInputs ⟨1, publicInputs, bytes⟩ = .ok () ↔
    ∃ text, bytes = certificatePrefix ++ text ++ certificateSuffix ∧ IsCount text := by
  unfold verify
  simp only [ne_eq, not_true_eq_false, or_self, if_false]
  have hcond : (!certificatePrefix.isPrefixOf bytes) = true ∨ (!certificateSuffix.isSuffixOf bytes) = true ∨
      bytes.length ≤ certificatePrefix.length + certificateSuffix.length ↔
      ¬ ∃ text, bytes = certificatePrefix ++ text ++ certificateSuffix ∧ text ≠ [] := by
    rw [← between_iff, Bool.not_eq_true', Bool.not_eq_true', not_and_or, not_and_or, not_lt,
      Bool.not_eq_true, Bool.not_eq_true]
  by_cases hformat : ∃ text, bytes = certificatePrefix ++ text ++ certificateSuffix ∧ text ≠ []
  · rw [if_neg fun h => hcond.mp h hformat]
    obtain ⟨text, rfl, -⟩ := hformat
    have hcancel : (∃ text', certificatePrefix ++ text ++ certificateSuffix =
        certificatePrefix ++ text' ++ certificateSuffix ∧ IsCount text') ↔ IsCount text := by
      constructor
      · rintro ⟨text', heq, h⟩
        rwa [List.append_cancel_left (List.append_cancel_right heq)]
      · exact fun h => ⟨text, rfl, h⟩
    rw [countText_eq, hcancel, ← fromChars_isCount]
    cases hread : fromChars text with
    | none => simp [failure]
    | some p =>
      obtain ⟨count, rest⟩ := p
      simp [pure, Except.pure]
  · rw [if_pos (hcond.mpr hformat)]
    constructor
    · intro h
      cases h
    · rintro ⟨text, heq, h⟩
      exact absurd ⟨text, heq, h.ne_nil⟩ hformat

/-- The certificate of a constraint system that is not empty is accepted. -/
theorem verify_certificate {n : ℕ} (hpos : 0 < n) (hn : n < 2 ^ 64) :
    verify publicInputs ⟨1, publicInputs, SingleBatchProver.certificate n 5⟩ = .ok () :=
  verify_eq_ok.mpr ⟨_, certificate_eq n, isCount_toDigits hpos hn⟩

end Certificate

/-! ## Counts with zeros in front -/

/-- A certificate whose count has zeros in front of its digits. -/
def paddedCertificate (zeros n : ℕ) : List UInt8 :=
  certificatePrefix ++ ascii (List.replicate zeros '0' ++ Nat.toDigits 10 n) ++ certificateSuffix

theorem certificate_eq_padded (n : ℕ) :
    SingleBatchProver.certificate n 5 = paddedCertificate 0 n := certificate_eq n

theorem ascii_chars (text : List UInt8) : ascii (text.map fun b => Char.ofNat b.toNat) = text := by
  have hbyte : ∀ b : UInt8, UInt8.ofNat (Char.ofNat b.toNat).toNat = b := by
    intro b
    have hb := b.toNat_lt
    rw [Char.toNat_ofNat, if_pos (Or.inl (by omega)), UInt8.ofNat_toNat]
  rw [ascii, List.map_map]
  exact (List.map_congr_left fun b _ => hbyte b).trans (List.map_id text)

theorem digits_padded {zeros n : ℕ} :
    ∀ c ∈ List.replicate zeros '0' ++ Nat.toDigits 10 n, c.isDigit = true := by
  intro c hc
  rcases List.mem_append.mp hc with hc | hc
  · rw [List.eq_of_mem_replicate hc]
    rfl
  · exact Nat.isDigit_of_mem_toDigits (by omega) le_rfl hc

/-- A count is a number with any zeros in front of it. -/
theorem isCount_iff {text : List UInt8} : IsCount text ↔
    ∃ zeros n, 1 ≤ n ∧ n ≤ 2 ^ 64 - 1 ∧ text = ascii (List.replicate zeros '0' ++ Nat.toDigits 10 n) := by
  constructor
  · rintro ⟨-, hdigits, hpos, hlt⟩
    have hchars : ∀ c ∈ text.map fun b => Char.ofNat b.toNat, c.isDigit = true := by
      intro c hc
      obtain ⟨b, hb, rfl⟩ := List.mem_map.mp hc
      exact hdigits b hb
    obtain ⟨zeros, hzeros⟩ := Decimal.eq_zeros_append hchars
    have hvalue : Decimal.value (text.map fun b => Char.ofNat b.toNat) = digitsValue text := rfl
    rw [hvalue, if_neg hpos.ne'] at hzeros
    refine ⟨zeros, digitsValue text, hpos, by omega, ?_⟩
    rw [← hzeros, ascii_chars]
  · rintro ⟨zeros, n, hpos, hle, rfl⟩
    have hvalue : digitsValue (ascii (List.replicate zeros '0' ++ Nat.toDigits 10 n)) = n := by
      rw [digitsValue, digits_ascii digits_padded]
      exact (Decimal.value_zeros_append ..).trans (Decimal.value_toDigits n)
    refine ⟨fun h => ?_, fun b hb => ?_, ?_, ?_⟩
    · exact Nat.toDigits_ne_nil (List.append_eq_nil_iff.mp (List.map_eq_nil_iff.mp h)).2
    · obtain ⟨c, hc, rfl⟩ := List.mem_map.mp hb
      rw [isDigit, charOf_ascii (digits_padded c hc)]
      exact digits_padded c hc
    · rw [hvalue]
      exact hpos
    · rw [hvalue]
      omega

/-- The zeros and the number are determined by the certificate. -/
theorem paddedCertificate_inj {zeros zeros' n n' : ℕ}
    (h : paddedCertificate zeros n = paddedCertificate zeros' n') : zeros = zeros' ∧ n = n' := by
  have htext := List.append_cancel_left (List.append_cancel_right h)
  have hchars := congrArg (List.map fun b : UInt8 => Char.ofNat b.toNat) htext
  rw [digits_ascii digits_padded, digits_ascii digits_padded] at hchars
  have hvalue := congrArg Decimal.value hchars
  simp only [Decimal.value_zeros_append, Decimal.value_toDigits] at hvalue
  subst hvalue
  have hlen := congrArg List.length (List.append_cancel_right hchars)
  rw [List.length_replicate, List.length_replicate] at hlen
  exact ⟨hlen, rfl⟩

section Acceptance

variable {D : Type} [DecidableEq D]

/-- **The accepted certificates.** On a string of bytes the format check and the prover's printer agree
unless the string is a certificate with zeros in front of its count. -/
theorem verify_emitted_iff (publicInputs : BatchProofPublicInputs D) (bytes : List UInt8) :
    (verify publicInputs ⟨1, publicInputs, bytes⟩ = .ok () ↔
      ∃ n, 1 ≤ n ∧ n ≤ 2 ^ 64 - 1 ∧ bytes = SingleBatchProver.certificate n 5) ↔
    ¬ ∃ zeros n, 1 ≤ zeros ∧ 1 ≤ n ∧ n ≤ 2 ^ 64 - 1 ∧ bytes = paddedCertificate zeros n := by
  have haccept : verify publicInputs ⟨1, publicInputs, bytes⟩ = .ok () ↔
      ∃ zeros n, 1 ≤ n ∧ n ≤ 2 ^ 64 - 1 ∧ bytes = paddedCertificate zeros n := by
    rw [verify_eq_ok]
    constructor
    · rintro ⟨text, rfl, h⟩
      obtain ⟨zeros, n, hpos, hle, rfl⟩ := isCount_iff.mp h
      exact ⟨zeros, n, hpos, hle, rfl⟩
    · rintro ⟨zeros, n, hpos, hle, rfl⟩
      exact ⟨_, rfl, isCount_iff.mpr ⟨zeros, n, hpos, hle, rfl⟩⟩
  simp only [certificate_eq_padded]
  constructor
  · rintro h ⟨zeros, n, hzeros, hpos, hle, rfl⟩
    obtain ⟨n', -, -, heq⟩ := h.mp (haccept.mpr ⟨zeros, n, hpos, hle, rfl⟩)
    have := (paddedCertificate_inj heq).1
    omega
  · intro h
    rw [haccept]
    constructor
    · rintro ⟨zeros, n, hpos, hle, rfl⟩
      rcases Nat.eq_zero_or_pos zeros with rfl | hzeros
      · exact ⟨n, hpos, hle, rfl⟩
      · exact absurd ⟨zeros, n, hzeros, hpos, hle, rfl⟩ h
    · rintro ⟨n, hpos, hle, rfl⟩
      exact ⟨0, n, hpos, hle, rfl⟩

/-- The public inputs of a proof, all zero. -/
def zeroInputs : BatchProofPublicInputs Bytes32 :=
  ⟨.fill 0, .fill 0, .fill 0, .fill 0, 0, 0⟩

/-- The count 007 is accepted, and no count is printed like that. -/
theorem verify_accepts_padded :
    verify zeroInputs ⟨1, zeroInputs, ascii
      "FC-R1CS-V1:constraints=007:public_inputs_len=5:status=SAT".toList⟩ = .ok () ∧
    ¬ ∃ n, 1 ≤ n ∧ n ≤ 2 ^ 64 - 1 ∧ SingleBatchProver.certificate n 5 =
      ascii "FC-R1CS-V1:constraints=007:public_inputs_len=5:status=SAT".toList := by
  have hpadded : ascii "FC-R1CS-V1:constraints=007:public_inputs_len=5:status=SAT".toList =
      paddedCertificate 2 7 := by decide +kernel
  rw [hpadded]
  refine ⟨by decide +kernel, ?_⟩
  rintro ⟨n, -, -, heq⟩
  rw [certificate_eq_padded] at heq
  have := (paddedCertificate_inj heq).1
  omega

end Acceptance

end SingleBatchVerifier

end FairCross
