import RamRestore.Json.Text
import Mathlib.Tactic.IntervalCases

/-! # Numbers are read back

A number ends where no byte follows that could go on with it. Its parts are read one after the
other, and each part ends where the next one begins.
-/

namespace RamRestore.Json

open Token

def Undigited (rest : List UInt8) : Prop := ∀ b ∈ rest.head?, isDigit b = false

/-- No number goes on with this byte. -/
def Stops (b : UInt8) : Prop := isDigit b = false ∧ b ≠ 0x2E ∧ b ≠ 0x65 ∧ b ≠ 0x45

instance (b : UInt8) : Decidable (Stops b) :=
  inferInstanceAs (Decidable (isDigit b = false ∧ b ≠ 0x2E ∧ b ≠ 0x65 ∧ b ≠ 0x45))

def Closed (rest : List UInt8) : Prop := ∀ b ∈ rest.head?, Stops b

theorem Closed.undigited {rest : List UInt8} (h : Closed rest) : Undigited rest :=
  fun b hb => (h b hb).1

theorem Closed.cons {b : UInt8} (h : Stops b) (rest : List UInt8) : Closed (b :: rest) := by
  intro b' hb'
  rw [List.head?_cons, Option.mem_some_iff] at hb'
  exact hb' ▸ h

/-! ## Runs of digits -/

theorem isDigit_digit (d : Fin 10) : isDigit (digit d) = true := by
  revert d
  decide

theorem toNat_digit (d : Fin 10) : (digit d).toNat - 0x30 = d.val := by
  revert d
  decide

theorem takeWhile_digits {ds rest : List UInt8} (hds : ∀ b ∈ ds, isDigit b = true)
    (h : Undigited rest) : (ds ++ rest).takeWhile isDigit = ds := by
  have hrest : rest.takeWhile isDigit = [] := by
    cases rest with
    | nil => rfl
    | cons b rest => rw [List.takeWhile_cons, h b rfl, if_neg Bool.false_ne_true]
  rw [List.takeWhile_append_of_pos hds, hrest, List.append_nil]

theorem dropWhile_digits {ds rest : List UInt8} (hds : ∀ b ∈ ds, isDigit b = true)
    (h : Undigited rest) : (ds ++ rest).dropWhile isDigit = rest := by
  rw [List.dropWhile_append_of_pos hds]
  cases rest with
  | nil => rfl
  | cons b rest => rw [List.dropWhile_cons, h b rfl, if_neg Bool.false_ne_true]

namespace Digits

theorem isDigit_bytes (ds : Digits) : ∀ b ∈ ds.bytes, isDigit b = true := by
  intro b hb
  rcases List.mem_cons.1 hb with rfl | hb
  · exact isDigit_digit ds.head
  · obtain ⟨d, -, rfl⟩ := List.mem_map.1 hb
    exact isDigit_digit d

theorem skipDigits_bytes (ds : Digits) {rest : List UInt8} (h : Undigited rest) :
    skipDigits (ds.bytes ++ rest) = some rest := by
  rw [skipDigits, takeWhile_digits ds.isDigit_bytes h, dropWhile_digits ds.isDigit_bytes h]
  rfl

end Digits

/-! ## The whole part -/

theorem isDigit_decimal (n : Nat) : ∀ b ∈ decimal n, isDigit b = true := by
  induction n using decimal.induct with
  | case1 n hn =>
    intro b hb
    rw [decimal, if_pos hn, List.mem_singleton] at hb
    exact hb ▸ isDigit_digit _
  | case2 n hn ih =>
    intro b hb
    rw [decimal, if_neg hn, List.mem_append, List.mem_singleton] at hb
    rcases hb with hb | rfl
    · exact ih b hb
    · exact isDigit_digit _

theorem ofDigits_decimal (n : Nat) : ofDigits (decimal n) = n := by
  induction n using decimal.induct with
  | case1 n hn =>
    rw [decimal, if_pos hn, ofDigits, List.foldl_cons, List.foldl_nil, toNat_digit]
    change 10 * 0 + n % 10 = n
    omega
  | case2 n hn ih =>
    rw [decimal, if_neg hn, ofDigits, List.foldl_append, List.foldl_cons, List.foldl_nil,
      toNat_digit, ← ofDigits, ih]
    change 10 * (n / 10) + n % 10 = n
    omega

theorem decimal_head (n : Nat) :
    ∃ (d : Fin 10) (tail : List UInt8), decimal n = digit d :: tail ∧ (d = 0 → n = 0) := by
  induction n using decimal.induct with
  | case1 n hn =>
    refine ⟨Fin.ofNat 10 n, [], by rw [decimal, if_pos hn], fun h => ?_⟩
    have : n % 10 = 0 := congrArg Fin.val h
    omega
  | case2 n hn ih =>
    obtain ⟨d, tail, htail, hzero⟩ := ih
    refine ⟨d, tail ++ [digit (Fin.ofNat 10 n)], ?_, fun h => ?_⟩
    · rw [decimal, if_neg hn, htail, List.cons_append]
    · have := hzero h
      omega

theorem lexWhole_decimal (n : Nat) {rest : List UInt8} (h : Undigited rest) :
    lexWhole (decimal n ++ rest) = some (n, rest) := by
  rcases Nat.eq_zero_or_pos n with rfl | hn
  · rw [decimal, if_pos (by decide)]
    rfl
  · obtain ⟨d, tail, htail, hzero⟩ := decimal_head n
    have hhead : ∀ bs, decimal n ++ rest ≠ 0x30 :: bs := by
      intro bs heq
      rw [htail, List.cons_append, List.cons.injEq] at heq
      have hd : ∀ d : Fin 10, digit d = 0x30 → d = 0 := by decide
      exact Nat.ne_of_gt hn (hzero (hd d heq.1))
    rw [lexWhole.eq_def]
    split
    · exact absurd ‹_› (hhead _)
    · have hback := ofDigits_decimal n
      rw [takeWhile_digits (isDigit_decimal n) h, dropWhile_digits (isDigit_decimal n) h, htail]
      rw [htail] at hback
      dsimp only
      rw [hback]

/-! ## Fraction and exponent -/

theorem skipFraction_back (fraction : Option Digits) {rest : List UInt8} (h : Undigited rest)
    (hdot : ∀ b ∈ rest.head?, b ≠ 0x2E) :
    skipFraction (fraction.toList.flatMap (0x2E :: Digits.bytes ·) ++ rest) = some rest := by
  cases fraction with
  | some ds =>
    rw [Option.toList_some, List.flatMap_singleton, List.cons_append]
    exact ds.skipDigits_bytes h
  | none =>
    rw [Option.toList_none, List.flatMap_nil, List.nil_append, skipFraction.eq_def]
    split
    · exact absurd rfl (hdot 0x2E rfl)
    · rfl

theorem skipExponent_back (exponent : Option Exponent) {rest : List UInt8} (h : Closed rest) :
    skipExponent (exponent.toList.flatMap Exponent.bytes ++ rest) = some rest := by
  cases exponent with
  | none =>
    rw [Option.toList_none, List.flatMap_nil, List.nil_append]
    cases rest with
    | nil => rfl
    | cons b rest =>
      obtain ⟨-, -, hsmall, hcapital⟩ := h b rfl
      rw [skipExponent.eq_def]
      dsimp only
      rw [if_neg (not_or.2 ⟨hsmall, hcapital⟩)]
  | some e =>
    obtain ⟨capital, sign, digits⟩ := e
    have hmark : (if capital then (0x45 : UInt8) else 0x65) = 0x65 ∨
        (if capital then (0x45 : UInt8) else 0x65) = 0x45 := by cases capital <;> decide
    rw [Option.toList_some, List.flatMap_singleton, Exponent.bytes, List.cons_append,
      skipExponent.eq_def]
    dsimp only
    rw [if_pos hmark]
    cases sign with
    | some s =>
      have hs : s.byte = 0x2B ∨ s.byte = 0x2D := by cases s <;> decide
      simp only [Option.toList_some, List.map_cons, List.map_nil, List.cons_append, List.nil_append,
        if_pos hs]
      exact digits.skipDigits_bytes h.undigited
    | none =>
      have hd : ∀ d : Fin 10, ¬(digit d = 0x2B ∨ digit d = 0x2D) := by decide
      simp only [Option.toList_none, List.map_nil, List.nil_append, Digits.bytes, List.cons_append,
        if_neg (hd _)]
      exact digits.skipDigits_bytes h.undigited

namespace Number

def behindWhole (n : Number) : List UInt8 :=
  n.fraction.toList.flatMap (0x2E :: Digits.bytes ·) ++ n.exponent.toList.flatMap Exponent.bytes

theorem bytes_eq (n : Number) :
    n.bytes = (if n.negative then [0x2D] else []) ++ (decimal n.whole ++ n.behindWhole) := by
  simp only [bytes, behindWhole, List.append_assoc]

theorem head (n : Number) : ∃ b bs, n.bytes = b :: bs ∧ isBlank b = false := by
  obtain ⟨d, tail, htail, -⟩ := decimal_head n.whole
  have hd : ∀ d, isBlank (digit d) = false := by decide
  rw [n.bytes_eq, htail]
  cases n.negative with
  | true => exact ⟨0x2D, _, rfl, rfl⟩
  | false => exact ⟨digit d, _, rfl, hd d⟩

/-- An exponent starts with its mark, so that a fraction ends there. -/
theorem exponent_head (exponent : Option Exponent) {rest : List UInt8} (h : Closed rest) :
    ∀ b ∈ (exponent.toList.flatMap Exponent.bytes ++ rest).head?, isDigit b = false ∧ b ≠ 0x2E := by
  cases exponent with
  | none => exact fun b hb => ⟨(h b hb).1, (h b hb).2.1⟩
  | some e =>
    intro b hb
    rw [Option.toList_some, List.flatMap_singleton, Exponent.bytes, List.cons_append,
      List.head?_cons, Option.mem_some_iff] at hb
    rw [← hb]
    cases e.capital <;> decide

theorem behindWhole_undigited (n : Number) {rest : List UInt8} (h : Closed rest) :
    Undigited (n.behindWhole ++ rest) := by
  intro b hb
  rw [behindWhole, List.append_assoc] at hb
  cases hf : n.fraction with
  | none => exact (exponent_head n.exponent h b (by rwa [hf] at hb)).1
  | some ds =>
    rw [hf, Option.toList_some, List.flatMap_singleton, List.cons_append, List.head?_cons,
      Option.mem_some_iff] at hb
    rw [← hb]
    decide

/-- Nothing stands behind the whole part of an integer, and only there. -/
theorem behindWhole_length (n : Number) (rest : List UInt8) :
    (rest.length = (n.behindWhole ++ rest).length) ↔ n.fraction = none ∧ n.exponent = none := by
  rw [List.length_append, behindWhole, List.length_append]
  cases n.fraction <;> cases n.exponent <;> simp [Exponent.bytes]

theorem lexNumber_back (n : Number) {rest : List UInt8} (h : Closed rest) :
    lexNumber n.negative (decimal n.whole ++ n.behindWhole ++ rest) = some (n.numeral, rest) := by
  have hexp := exponent_head n.exponent h
  rw [lexNumber, List.append_assoc, lexWhole_decimal n.whole (n.behindWhole_undigited h)]
  have hfraction : skipFraction (n.behindWhole ++ rest) =
      some (n.exponent.toList.flatMap Exponent.bytes ++ rest) := by
    rw [behindWhole, List.append_assoc]
    exact skipFraction_back n.fraction (fun b hb => (hexp b hb).1) fun b hb => (hexp b hb).2
  simp only [Option.bind_eq_bind, Option.bind_some, hfraction, skipExponent_back n.exponent h,
    Option.pure_def, Option.some.injEq, Prod.mk.injEq, and_true, numeral, n.behindWhole_length]
  cases n.fraction <;> cases n.exponent <;> rfl

theorem next_digit (d : Fin 10) (rest : List UInt8) :
    next (digit d :: rest) =
      (lexNumber false (digit d :: rest)).map fun (n, rest) => (.number n, rest) := by
  obtain ⟨d, hd⟩ := d
  interval_cases d <;> rfl

theorem next_back (n : Number) {rest : List UInt8} (h : Closed rest) :
    next (n.bytes ++ rest) = some (.number n.numeral, rest) := by
  have hback := n.lexNumber_back h
  rw [bytes_eq]
  cases hsign : n.negative with
  | true =>
    rw [hsign] at hback
    rw [if_pos rfl, List.singleton_append, List.cons_append, next, hback]
    rfl
  | false =>
    rw [hsign] at hback
    obtain ⟨d, tail, htail, -⟩ := decimal_head n.whole
    rw [htail, List.cons_append, List.cons_append] at hback
    rw [if_neg Bool.false_ne_true, List.nil_append, htail, List.cons_append, List.cons_append,
      next_digit, hback]
    rfl

end Number
end RamRestore.Json
