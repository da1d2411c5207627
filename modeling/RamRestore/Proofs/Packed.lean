import Mathlib.Data.Nat.Bitwise
import Mathlib.Tactic.Ring
import RamRestore.Delta

/-! # Reading what was written

A reader gets back every number of 64 bits, and every delta whose magnitude has 63 bits, from
what the writer made of it, and leaves alone what stands behind.
-/

namespace RamRestore

namespace Packed

theorem readGroups_write (groups : Nat) {n : Nat} (h : n < 128 ^ (groups + 1))
    (weight sum : Nat) (rest : List UInt8) :
    readGroups (groups + 1) weight sum (write n ++ rest) =
      (.ok ((sum + n * weight) % word64Count), rest) := by
  induction groups generalizing n weight sum with
  | zero =>
    have hb : (UInt8.ofNat n).toNat = n := by
      rw [UInt8.toNat_ofNat']
      omega
    rw [write, if_pos (by omega), List.singleton_append, readGroups]
    simp only [hb, Nat.mod_eq_of_lt (show n < 128 by omega), if_pos (show n < 128 by omega)]
  | succ groups ih =>
    rw [write]
    split
    · rename_i hn
      have hb : (UInt8.ofNat n).toNat = n := by
        rw [UInt8.toNat_ofNat']
        omega
      rw [List.singleton_append, readGroups]
      simp only [hb, Nat.mod_eq_of_lt hn, if_pos hn]
    · have hb : (UInt8.ofNat (n % 128 + 128)).toNat = n % 128 + 128 := by
        rw [UInt8.toNat_ofNat']
        omega
      have hq : n / 128 < 128 ^ (groups + 1) := by
        rw [Nat.div_lt_iff_lt_mul (by decide), ← Nat.pow_succ]
        exact h
      have hsum : sum + (n % 128 + 128) % 128 * weight + n / 128 * (weight * 128) =
          sum + n * weight := by
        have hm : (n % 128 + 128) % 128 = n % 128 := by omega
        have hn : n * weight = (128 * (n / 128) + n % 128) * weight := by rw [Nat.div_add_mod]
        rw [hm, hn]
        ring
      rw [List.cons_append, readGroups]
      simp only [hb, if_neg (show ¬ n % 128 + 128 < 128 by omega)]
      rw [ih hq, hsum]

theorem read_write {n : Nat} (h : n < word64Count) (rest : List UInt8) :
    read (write n ++ rest) = (.ok n, rest) := by
  have hlt : n < 128 ^ (9 + 1) := Nat.lt_trans h (by decide)
  rw [read, maxLength, readGroups_write 9 hlt, Nat.zero_add, Nat.mul_one, Nat.mod_eq_of_lt h]

/-- Putting a group behind those in a word adds it at its weight, up to the bits that do not fit. -/
theorem toNat_or_group {shift word : UInt64} {sum : Nat} (hs : shift.toNat < 64)
    (hw : word.toNat = sum) (hsum : sum < 2 ^ shift.toNat) (b : UInt8) :
    (word ||| (b &&& 0x7F).toUInt64 <<< shift).toNat =
      (sum + b.toNat % 128 * 2 ^ shift.toNat) % word64Count := by
  have hb : (b &&& 0x7F).toUInt64.toNat = b.toNat % 128 := by
    rw [UInt8.toNat_toUInt64, UInt8.toNat_and]
    exact Nat.and_two_pow_sub_one_eq_mod b.toNat 7
  have hor : sum + b.toNat % 128 * 2 ^ shift.toNat = sum ||| (b.toNat % 128) <<< shift.toNat := by
    rw [Nat.add_comm, ← Nat.shiftLeft_eq, Nat.shiftLeft_add_eq_or_of_lt hsum, Nat.or_comm]
  have hlt : sum < 2 ^ 64 := Nat.lt_of_lt_of_le hsum (Nat.pow_le_pow_right (by decide) hs.le)
  rw [UInt64.toNat_or, UInt64.toNat_shiftLeft, hb, hw, Nat.mod_eq_of_lt hs, hor]
  change _ = _ % 2 ^ 64
  rw [Nat.or_mod_two_pow, Nat.mod_eq_of_lt hlt]

theorem and_top_eq_zero_iff (b : UInt8) : b &&& 0x80 = 0 ↔ b.toNat < 128 := by
  rw [← UInt8.toNat_inj, UInt8.toNat_and]
  have hlt := b.toNat_lt
  change b.toNat &&& 2 ^ 7 = 0 ↔ b.toNat < 2 ^ 7
  rw [Nat.and_two_pow, Nat.testBit_eq_decide_div_mod_eq]
  by_cases htop : b.toNat / 2 ^ 7 % 2 = 1
  · simp only [htop, decide_true, Bool.toNat_true]
    omega
  · simp only [htop, decide_false, Bool.toNat_false]
    omega

theorem readWordGroups_eq (groups : Nat) {shift word : UInt64} {sum : Nat}
    (hs : shift.toNat + 7 * groups = 70) (hw : word.toNat = sum) (hsum : sum < 2 ^ shift.toNat)
    (bytes : List UInt8) :
    ((readWordGroups groups shift word bytes).1.map UInt64.toNat,
        (readWordGroups groups shift word bytes).2) =
      readGroups groups (2 ^ shift.toNat) sum bytes := by
  induction groups generalizing shift word sum bytes with
  | zero => rfl
  | succ groups ih =>
    cases bytes with
    | nil => rfl
    | cons b rest =>
      have hword := toNat_or_group (by omega) hw hsum b
      rw [readWordGroups, readGroups]
      by_cases hb : b.toNat < 128
      · rw [if_pos hb, if_pos ((and_top_eq_zero_iff b).2 hb)]
        exact congrArg (fun n => (Except.ok n, rest)) hword
      · rw [if_neg hb, if_neg (mt (and_top_eq_zero_iff b).1 hb)]
        cases groups with
        | zero => rfl
        | succ groups =>
          -- the word is not full before the last group
          have hshift : (shift + 7).toNat = shift.toNat + 7 := by
            rw [UInt64.toNat_add]
            change (shift.toNat + 7) % 2 ^ 64 = _
            omega
          have hpow : (2 : Nat) ^ (shift.toNat + 7) = 2 ^ shift.toNat * 128 := Nat.pow_add 2 _ 7
          have hgroup : b.toNat % 128 * 2 ^ shift.toNat ≤ 127 * 2 ^ shift.toNat :=
            Nat.mul_le_mul_right _ (by omega)
          have hlt : sum + b.toNat % 128 * 2 ^ shift.toNat < 2 ^ (shift.toNat + 7) := by omega
          have hfits : (2 : Nat) ^ (shift.toNat + 7) ≤ word64Count :=
            Nat.pow_le_pow_right (by decide) (show shift.toNat + 7 ≤ 64 by omega)
          rw [Nat.mod_eq_of_lt (hlt.trans_le hfits)] at hword
          rw [← hpow, ← hshift]
          exact ih (by omega) hword (hshift ▸ hlt) rest

/-- A machine reads the same number and takes the same bytes. -/
theorem readWord_eq (bytes : List UInt8) :
    ((readWord bytes).1.map UInt64.toNat, (readWord bytes).2) = read bytes :=
  readWordGroups_eq maxLength rfl rfl (by decide) bytes

end Packed

namespace Delta

theorem decode_encode (d : Int) : decode (encode d) = d := by
  unfold encode decode
  split <;> split <;> omega

theorem encode_lt {d : Int} (h : d.natAbs < 0x8000000000000000) : encode d < word64Count := by
  unfold encode word64Count
  split <;> omega

end Delta
end RamRestore
