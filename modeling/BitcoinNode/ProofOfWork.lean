import BitcoinNode.Blocks

/-! Proof of work as a comparison of numbers: the target of a header is its mantissa moved up by
the exponent, and the bytes are compared as the numbers they write. -/
namespace BitcoinNode

open LittleEndian (encode decode)

namespace BlockHeader

/-- The high byte of `nBits`. -/
def exponent (h : BlockHeader) : Nat := h.nBits.toNat / 2 ^ 24

/-- The low 24 bits of `nBits`. -/
def mantissa (h : BlockHeader) : Nat := h.nBits.toNat % 2 ^ 24

/-- The hash as a 256-bit number, least significant byte first. -/
def work [Crates] (h : BlockHeader) : Nat := decode h.hash.val

theorem exponent_lt (h : BlockHeader) : h.exponent < 256 := by
  have bound := h.nBits.toNat_lt
  unfold exponent
  omega

theorem n_bits_bytes (h : BlockHeader) :
    (u32ToLeBytes h.nBits).reverse = UInt8.ofNat h.exponent :: (encode 3 h.mantissa).reverse := by
  have low : encode 3 h.mantissa = encode 3 h.nBits.toNat := LittleEndian.encode_mod 3 _
  have parts : encode 4 h.nBits.toNat = encode 3 h.nBits.toNat ++ encode 1 h.exponent :=
    LittleEndian.encode_add 3 1 _
  rw [u32ToLeBytes, parts, ← low, List.reverse_append]
  rfl

theorem target_eq {firstByte : Nat} (low : 3 ≤ firstByte) (high : firstByte ≤ 32) (a b c : UInt8) :
    target firstByte [a, b, c] =
      .ok (List.replicate (32 - firstByte) 0 ++ [a, b, c] ++ List.replicate (firstByte - 3) 0) := by
  have zeros : List.replicate 32 (0 : UInt8) =
      List.replicate (32 - firstByte) 0 ++ ([0, 0, 0] ++ List.replicate (firstByte - 3) 0) := by
    have three : [0, 0, 0] = List.replicate 3 (0 : UInt8) := rfl
    rw [three, List.replicate_append_replicate, List.replicate_append_replicate]
    congr 1
    omega
  simp [target, Outcome.assign, zeros]

theorem target_panics {firstByte : Nat} (small : firstByte < 3) (a b c : UInt8) :
    target firstByte [a, b, c] = Outcome.panic := by
  obtain rfl | rfl | rfl : firstByte = 0 ∨ firstByte = 1 ∨ firstByte = 2 := by omega
  all_goals simp [target, Outcome.assign]
  all_goals rfl

/-- Read as a number, the target is the mantissa with `exponent - 3` zero bytes below it. -/
theorem decode_target {firstByte : Nat} (low : 3 ≤ firstByte) (high : firstByte ≤ 32) (m : Nat)
    (fits : m < 2 ^ 24) :
    ∃ bytes, target firstByte (encode 3 m).reverse = .ok bytes ∧ bytes.length = 32 ∧
      decode bytes.reverse = m * 256 ^ (firstByte - 3) := by
  have three : (encode 3 m).reverse.length = 3 := by simp
  obtain ⟨a, b, c, shape⟩ := List.length_eq_three.mp three
  refine ⟨_, shape ▸ target_eq low high a b c, by simp; omega, ?_⟩
  have value : decode (encode 3 m) = m := LittleEndian.decode_encode_of_lt 3 m fits
  rw [List.reverse_append, List.reverse_append, List.reverse_reverse, List.reverse_replicate,
    List.reverse_replicate, LittleEndian.decode_append, LittleEndian.decode_append, value]
  simp [Nat.mul_comm]

variable [Crates]

theorem validate_eq (h : BlockHeader) :
    h.validate = if h.exponent < 3 then Outcome.panic
      else .ok (decide (h.exponent ≤ 32 ∧ h.work < h.mantissa * 256 ^ (h.exponent - 3))) := by
  have byte : (UInt8.ofNat h.exponent).toNat = h.exponent :=
    UInt8.toNat_ofNat_of_lt' h.exponent_lt
  have fits : h.mantissa < 2 ^ 24 := Nat.mod_lt _ (by decide)
  simp only [validate, n_bits_bytes, Outcome.index, List.getElem?_cons_zero, Outcome.bind_ok, byte,
    List.drop_succ_cons, List.drop_zero]
  by_cases above : 32 < h.exponent
  · simp [above, Nat.not_le_of_lt above]
    omega
  rw [if_neg above]
  by_cases small : h.exponent < 3
  · have three : (encode 3 h.mantissa).reverse.length = 3 := by simp
    obtain ⟨a, b, c, shape⟩ := List.length_eq_three.mp three
    rw [if_pos small, shape, target_panics small]
    rfl
  · obtain ⟨target, built, length, value⟩ := @decode_target h.exponent (by omega) (by omega) h.mantissa fits
    have order := LittleEndian.lt_iff_decode_reverse (a := h.hash.reverse.val) (b := target)
      (by simp [length])
    rw [U8Array.val_reverse, List.reverse_reverse, value] at order
    rw [if_neg small, built, Outcome.bind_ok]
    simp [order, work, Nat.le_of_not_lt above]

/-- Within the array the comparison of bytes is the comparison of numbers. -/
theorem validate_iff_work_below (h : BlockHeader) :
    (3 ≤ h.exponent → h.exponent ≤ 32 →
      h.validate = .ok (decide (h.work < h.mantissa * 256 ^ (h.exponent - 3)))) ∧
    (32 < h.exponent → h.validate = .ok false) := by
  rw [validate_eq]
  refine ⟨fun low high => ?_, fun above => ?_⟩
  · simp [Nat.not_lt_of_le low, high]
  · have enough : ¬h.exponent < 3 := by omega
    simp [enough, Nat.not_le_of_lt above]

theorem validate_panics_iff (h : BlockHeader) : h.validate = Outcome.panic ↔ h.exponent < 3 := by
  rw [validate_eq]
  split
  · simp_all
  · simp_all [Outcome.panic]

theorem validate_answers_iff (h : BlockHeader) : (∃ valid, h.validate = .ok valid) ↔ 3 ≤ h.exponent := by
  rw [validate_eq]
  split
  · refine iff_of_false ?_ (by omega)
    simp [Outcome.panic]
  · exact iff_of_true ⟨_, rfl⟩ (by omega)

theorem validate_ne_abort (h : BlockHeader) : h.validate ≠ Outcome.abort := by
  rw [validate_eq]
  split <;> simp [Outcome.panic, Outcome.abort]

end BlockHeader

/-- The easiest target is compared as a number; an exponent past the array never passes. -/
theorem BlockHeader.validate_iff_work_below_minted :
    let _ := Crates.standard
    let h := (Block.minted 1).blockHeader
    let far := { h with nBits := 0x21ffffff }
    h.validate = .ok (decide (h.work < 0xffffff * 256 ^ 29)) ∧ far.validate = .ok false := by
  refine ⟨?_, ?_⟩
  · exact (@BlockHeader.validate_iff_work_below Crates.standard _).1 (by decide) (by decide)
  · exact (@BlockHeader.validate_iff_work_below Crates.standard _).2 (by decide)

end BitcoinNode
