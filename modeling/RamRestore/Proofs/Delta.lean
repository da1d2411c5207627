import Mathlib.Tactic.Common
import RamRestore.Proofs.Packed

/-! # Codes of deltas in words

On words of 64 bits nothing is lost between a delta and its code: shifting a magnitude up drops no
bit, and turning it round does not overflow. So codes and deltas correspond to each other one by
one, but for the smallest signed word, which has no code, and the code 1, which stands for zero.
-/

namespace RamRestore.Delta

/-! ### Codes without bounds -/

theorem natAbs_decode (n : Nat) : (decode n).natAbs = n / 2 := by
  unfold decode
  split <;> omega

theorem encode_decode {n : Nat} (h : n ≠ 1) : encode (decode n) = n := by
  unfold decode encode
  split <;> split <;> omega

/-- Two codes stand for one delta only where both of them stand for zero. -/
theorem decode_eq_iff {m n : Nat} : decode m = decode n ↔ m = n ∨ m ≤ 1 ∧ n ≤ 1 := by
  unfold decode
  constructor
  · intro h
    split at h <;> split at h <;> omega
  · intro h
    split <;> split <;> omega

/-! ### From a code to its delta -/

section

variable (n : UInt64)

/-- The lowest bit of a code is the sign. -/
theorem and_one_eq_one_iff : n &&& 1 = 1 ↔ n.toNat % 2 = 1 := by
  rw [← UInt64.toNat_inj, UInt64.toNat_and]
  exact Iff.of_eq (congrArg (· = 1) (Nat.and_one_is_mod _))

theorem toInt_magnitude : (n >>> 1).toInt64.toInt = (n.toNat / 2 : Nat) := by
  have hlt := n.toNat_lt
  have hn : (n >>> 1).toNat = n.toNat / 2 := by
    rw [UInt64.toNat_shiftRight]
    exact Nat.shiftRight_eq_div_pow _ 1
  have h : (n >>> 1).toInt64.toInt = (n >>> 1).toBitVec.toInt := rfl
  rw [h, BitVec.toInt_eq_toNat_cond, UInt64.toNat_toBitVec, hn, if_pos (by omega)]

/-- A magnitude has 63 bits at most, so it can be turned round. -/
theorem toInt_neg_magnitude : (-(n >>> 1).toInt64).toInt = -(n.toNat / 2 : Nat) := by
  have hlt := n.toNat_lt
  rw [Int64.toInt_neg, toInt_magnitude]
  apply Int.bmod_eq_of_le <;> omega

theorem toInt_decodeWord : (decodeWord n).toInt = decode n.toNat := by
  unfold decodeWord decode
  simp only [and_one_eq_one_iff]
  split
  · exact toInt_neg_magnitude n
  · exact toInt_magnitude n

theorem natAbs_decodeWord_le : (decodeWord n).toInt.natAbs ≤ 2 ^ 63 - 1 := by
  have hlt := n.toNat_lt
  rw [toInt_decodeWord, natAbs_decode]
  omega

end

/-! ### From a delta to its code -/

section

variable {d : Int64}

theorem natAbs_le_iff : d.toInt.natAbs ≤ 2 ^ 63 - 1 ↔ d ≠ .minValue := by
  have hlt := d.toInt_lt
  have hle := d.le_toInt
  rw [ne_eq, ← Int64.toInt_inj, Int64.toInt_minValue]
  omega

theorem toNat_toUInt64 (h : 0 ≤ d) : d.toUInt64.toNat = d.toInt.natAbs := by
  have hd : d.toInt = d.toUInt64.toBitVec.toInt := rfl
  have hlt := d.toUInt64.toNat_lt
  rw [Int64.le_iff_toInt_le, Int64.toInt_zero] at h
  rw [BitVec.toInt_eq_toNat_cond, UInt64.toNat_toBitVec] at hd
  split at hd <;> omega

theorem toNat_abs (h : d < 0) : d.abs.toUInt64.toNat = d.toInt.natAbs := by
  have hd : d.toInt = d.toBitVec.toInt := rfl
  have habs : d.abs.toUInt64.toNat = d.toBitVec.abs.toNat := rfl
  have hlt := d.toBitVec.isLt
  rw [Int64.lt_iff_toInt_lt, Int64.toInt_zero] at h
  have hmsb : d.toBitVec.msb = true := by
    rw [BitVec.msb_eq_toInt, ← hd]
    exact decide_eq_true h
  rw [BitVec.toInt_eq_toNat_cond] at hd
  rw [habs, BitVec.toNat_abs, if_pos hmsb]
  split at hd <;> omega

/-- The top bit of a magnitude is clear, so moving it up drops nothing. -/
theorem toNat_shiftLeft_one {m : UInt64} (h : m.toNat ≤ 2 ^ 63 - 1) :
    (m <<< 1).toNat = 2 * m.toNat := by
  rw [UInt64.toNat_shiftLeft]
  have h1 : m.toNat <<< ((1 : UInt64).toNat % 64) = m.toNat * 2 := Nat.shiftLeft_eq _ 1
  omega

theorem toNat_shiftLeft_abs (h : d < 0) (hd : d ≠ .minValue) :
    (d.abs.toUInt64 <<< 1).toNat = 2 * d.toInt.natAbs := by
  have hle := natAbs_le_iff.2 hd
  rw [← toNat_abs h] at hle ⊢
  exact toNat_shiftLeft_one hle

theorem toNat_shiftLeft_toUInt64 (h : 0 ≤ d) :
    (d.toUInt64 <<< 1).toNat = 2 * d.toInt.natAbs := by
  have hlt := d.toInt_lt
  have hle := d.le_toInt
  have h0 := h
  rw [Int64.le_iff_toInt_le, Int64.toInt_zero] at h0
  rw [← toNat_toUInt64 h]
  apply toNat_shiftLeft_one
  rw [toNat_toUInt64 h]
  omega

theorem toNat_encodeWord (h : d ≠ .minValue) : (encodeWord d).toNat = encode d.toInt := by
  have hz : d < 0 ↔ d.toInt < 0 := Int64.lt_iff_toInt_lt
  unfold encodeWord encode
  split
  · rename_i hd
    rw [if_pos (hz.1 hd), UInt64.toNat_or, toNat_shiftLeft_abs hd h]
    exact (Nat.two_pow_add_eq_or_of_lt (i := 1) (by decide) _).symm
  · rename_i hd
    rw [if_neg (mt hz.2 hd), toNat_shiftLeft_toUInt64 (Int64.not_lt.1 hd)]

end

/-! ### Codes and deltas -/

theorem decodeWord_encodeWord {d : Int64} (h : d ≠ .minValue) :
    decodeWord (encodeWord d) = d := by
  rw [← Int64.toInt_inj, toInt_decodeWord, toNat_encodeWord h, decode_encode]

theorem decodeWord_ne_minValue (n : UInt64) : decodeWord n ≠ .minValue :=
  natAbs_le_iff.1 (natAbs_decodeWord_le n)

theorem encodeWord_decodeWord {n : UInt64} (h : n ≠ 1) : encodeWord (decodeWord n) = n := by
  have hn : n.toNat ≠ 1 := fun hn => h (UInt64.toNat_inj.1 hn)
  rw [← UInt64.toNat_inj, toNat_encodeWord (decodeWord_ne_minValue n), toInt_decodeWord,
    encode_decode hn]

theorem decodeWord_eq_iff {m n : UInt64} :
    decodeWord m = decodeWord n ↔ m = n ∨ (m = 0 ∨ m = 1) ∧ (n = 0 ∨ n = 1) := by
  have hle (k : UInt64) : k.toNat ≤ 1 ↔ k = 0 ∨ k = 1 := by
    rw [Nat.le_one_iff_eq_zero_or_eq_one, ← UInt64.toNat_inj, ← UInt64.toNat_inj]
    exact Iff.rfl
  rw [← Int64.toInt_inj, toInt_decodeWord, toInt_decodeWord, decode_eq_iff, UInt64.toNat_inj,
    hle, hle]

theorem exists_decodeWord_eq_iff {d : Int64} :
    (∃ n, decodeWord n = d) ↔ d.toInt.natAbs ≤ 2 ^ 63 - 1 := by
  constructor
  · rintro ⟨n, rfl⟩
    exact natAbs_decodeWord_le n
  · intro h
    exact ⟨encodeWord d, decodeWord_encodeWord (natAbs_le_iff.1 h)⟩

/-- Codes and deltas correspond to each other one by one, but for the code 1, which is read as zero,
and the smallest signed word, which no code stands for. All steps from one to the other are those
of numbers without bounds. -/
theorem codes_correspond_to_deltas :
    (∀ d : Int64, d ≠ .minValue → decodeWord (encodeWord d) = d) ∧
    (∀ n : UInt64, n ≠ 1 → encodeWord (decodeWord n) = n) ∧
    decodeWord 1 = 0 ∧
    (∀ m n : UInt64,
      decodeWord m = decodeWord n ↔ m = n ∨ (m = 0 ∨ m = 1) ∧ (n = 0 ∨ n = 1)) ∧
    (∀ d : Int64, (∃ n, decodeWord n = d) ↔ d.toInt.natAbs ≤ 2 ^ 63 - 1) ∧
    (∀ n : UInt64,
      (n >>> 1).toInt64.toInt = (n.toNat / 2 : Nat) ∧
      (-(n >>> 1).toInt64).toInt = -(n.toNat / 2 : Nat) ∧
      (decodeWord n).toInt = decode n.toNat) ∧
    (∀ d : Int64, d ≠ .minValue →
      (d < 0 → (d.abs.toUInt64 <<< 1).toNat = 2 * d.toInt.natAbs) ∧
      (0 ≤ d → (d.toUInt64 <<< 1).toNat = 2 * d.toInt.natAbs) ∧
      (encodeWord d).toNat = encode d.toInt) := by
  constructor
  · exact fun _ => decodeWord_encodeWord
  constructor
  · exact fun _ => encodeWord_decodeWord
  constructor
  · exact decodeWord_eq_iff.2 (.inr ⟨.inr rfl, .inl rfl⟩)
  constructor
  · exact fun _ _ => decodeWord_eq_iff
  constructor
  · exact fun _ => exists_decodeWord_eq_iff
  constructor
  · exact fun n => ⟨toInt_magnitude n, toInt_neg_magnitude n, toInt_decodeWord n⟩
  · intro d hd
    exact ⟨fun h => toNat_shiftLeft_abs h hd, toNat_shiftLeft_toUInt64, toNat_encodeWord hd⟩

theorem least_delta_corresponds_to_greatest_code :
    (-9223372036854775807 : Int64) ≠ .minValue ∧
    encodeWord (-9223372036854775807) = 18446744073709551615 ∧
    decodeWord (encodeWord (-9223372036854775807)) = -9223372036854775807 ∧
    encodeWord (decodeWord 18446744073709551615) = 18446744073709551615 ∧
    (encodeWord (-9223372036854775807)).toNat = encode (-9223372036854775807) := by
  have hd : (-9223372036854775807 : Int64) ≠ .minValue := by decide
  have hn : (18446744073709551615 : UInt64) ≠ 1 := by decide
  obtain ⟨hdelta, hcode, -, -, -, -, hexact⟩ := codes_correspond_to_deltas
  obtain ⟨-, -, he⟩ := hexact _ hd
  exact ⟨hd, by decide, hdelta _ hd, hcode _ hn, he⟩

end RamRestore.Delta
