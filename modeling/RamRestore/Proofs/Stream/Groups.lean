import Mathlib.Algebra.BigOperators.Group.Finset.Basic
import Mathlib.Algebra.BigOperators.Ring.Finset
import Mathlib.Tactic.Ring
import RamRestore.Proofs.Packed
import RamRestore.Stream

/-! # Which bytes are a number

The first byte without the top bit ends a number, unless ten bytes have gone by without one.
What the number is and how many bytes it takes depends on nothing else.
-/

namespace RamRestore

namespace Packed

def last? (groups : Nat) (bytes : List UInt8) : Option Nat :=
  (bytes.take groups).findIdx? (·.toNat < 128)

/-- What the first `count` groups stand for: seven bits each, lowest group first. -/
def groupSum (bytes : List UInt8) (count : Nat) : Nat :=
  ∑ i ∈ Finset.range count, (bytes.getD i 0).toNat % 128 * 2 ^ (7 * i)

def outcome (bytes : List UInt8) : Except Error Nat × List UInt8 :=
  match last? maxLength bytes with
  | some k => (.ok (groupSum bytes (k + 1) % word64Count), bytes.drop (k + 1))
  | none =>
    if bytes.length < maxLength then (.error .ended, [])
    else (.error .tooLong, bytes.drop maxLength)

/-- These bytes are one number and nothing else. -/
def Whole (bytes : List UInt8) : Prop := ∃ k, last? maxLength bytes = some k ∧ bytes.length = k + 1

def value (bytes : List UInt8) : Nat := groupSum bytes bytes.length % word64Count

theorem last?_cons (groups : Nat) (b : UInt8) (bytes : List UInt8) :
    last? (groups + 1) (b :: bytes) =
      if b.toNat < 128 then some 0 else (last? groups bytes).map (· + 1) := by
  simp only [last?, List.take_succ_cons, List.findIdx?_cons, decide_eq_true_eq]

theorem groupSum_cons (b : UInt8) (bytes : List UInt8) (count : Nat) :
    groupSum (b :: bytes) (count + 1) = b.toNat % 128 + 128 * groupSum bytes count := by
  rw [groupSum, Finset.sum_range_succ', groupSum, Finset.mul_sum, Nat.add_comm]
  congr 1
  · simp
  · refine Finset.sum_congr rfl fun i _ => ?_
    rw [List.getD_cons_succ, Nat.mul_succ, Nat.pow_add]
    ring

theorem readGroups_eq (groups weight sum : Nat) (bytes : List UInt8) :
    readGroups groups weight sum bytes =
      match last? groups bytes with
      | some k =>
        (.ok ((sum + weight * groupSum bytes (k + 1)) % word64Count), bytes.drop (k + 1))
      | none =>
        if bytes.length < groups then (.error .ended, [])
        else (.error .tooLong, bytes.drop groups) := by
  induction groups generalizing weight sum bytes with
  | zero => simp [readGroups, last?]
  | succ groups ih =>
    cases bytes with
    | nil => simp [readGroups, last?]
    | cons b rest =>
      rw [readGroups, last?_cons]
      by_cases hb : b.toNat < 128
      · have hsum : groupSum (b :: rest) 1 = b.toNat % 128 := by simp [groupSum]
        rw [if_pos hb, if_pos hb]
        dsimp only
        rw [hsum, Nat.mul_comm]
        rfl
      · rw [if_neg hb, if_neg hb, ih]
        cases last? groups rest with
        | some k =>
          have hsum : sum + b.toNat % 128 * weight + weight * 128 * groupSum rest (k + 1) =
              sum + weight * groupSum (b :: rest) (k + 1 + 1) := by
            rw [groupSum_cons]
            ring
          simp only [Option.map_some, hsum, List.drop_succ_cons]
        | none =>
          simp only [Option.map_none, List.length_cons, Nat.add_lt_add_iff_right,
            List.drop_succ_cons]

theorem read_eq_outcome (bytes : List UInt8) : read bytes = outcome bytes := by
  rw [read, readGroups_eq]
  simp only [outcome, Nat.zero_add, Nat.one_mul]

theorem groupSum_take (bytes : List UInt8) (count : Nat) :
    groupSum (bytes.take count) count = groupSum bytes count := by
  refine Finset.sum_congr rfl fun i hi => ?_
  have hlt : i < count := Finset.mem_range.1 hi
  rw [List.getD_eq_getElem?_getD, List.getD_eq_getElem?_getD, List.getElem?_take_of_lt hlt]

theorem lt_of_last? {groups k : Nat} {bytes : List UInt8} (h : last? groups bytes = some k) :
    k < groups ∧ k < bytes.length := by
  obtain ⟨hk, -⟩ := List.findIdx?_eq_some_iff_getElem.1 h
  rw [List.length_take] at hk
  omega

theorem whole_take {k : Nat} {bytes : List UInt8} (h : last? maxLength bytes = some k) :
    Whole (bytes.take (k + 1)) := by
  obtain ⟨hgroups, hlength⟩ := lt_of_last? h
  refine ⟨k, ?_, by rw [List.length_take]; omega⟩
  obtain ⟨hk, hlast, hbefore⟩ := List.findIdx?_eq_some_iff_getElem.1 h
  refine List.findIdx?_eq_some_iff_getElem.2 ⟨?_, ?_, fun j hj => ?_⟩
  · rw [List.length_take, List.length_take]
    omega
  · simpa only [List.getElem_take] using hlast
  · simpa only [List.getElem_take] using hbefore j hj

theorem value_take {k : Nat} {bytes : List UInt8} (h : last? maxLength bytes = some k) :
    value (bytes.take (k + 1)) = groupSum bytes (k + 1) % word64Count := by
  have hlength : (bytes.take (k + 1)).length = k + 1 := by
    rw [List.length_take]
    exact Nat.min_eq_left (lt_of_last? h).2
  rw [value, hlength, groupSum_take]

end Packed

namespace Stream

open Packed

/-- What comes of reading `count` numbers one after the other: whole numbers, each with its own
bytes, and behind them what is left, or what no number could be read of. -/
structure Tiles (count : Nat) (bytes : List UInt8) (blocks : List (List UInt8)) (tail : List UInt8)
    (r : Reading) : Prop where
  bytes : bytes = blocks.flatten ++ tail
  whole : ∀ block ∈ blocks, Whole block
  entries : r.entries = blocks.map fun block => .number (value block)
  stop : blocks.length = count ∧ r.failure = none ∧ r.rest = tail ∨
    blocks.length < count ∧ ∃ e, r.failure = some e ∧ outcome tail = (.error e, r.rest)

theorem Tiles.cons {count k : Nat} {bytes tail : List UInt8} {blocks : List (List UInt8)}
    {r : Reading} (hl : last? maxLength bytes = some k)
    (h : Tiles count (bytes.drop (k + 1)) blocks tail r) :
    Tiles (count + 1) bytes (bytes.take (k + 1) :: blocks) tail
      { r with entries := .number (groupSum bytes (k + 1) % word64Count) :: r.entries } where
  bytes := by rw [List.flatten_cons, List.append_assoc, ← h.bytes, List.take_append_drop]
  whole := List.forall_mem_cons.2 ⟨whole_take hl, h.whole⟩
  entries := by rw [List.map_cons, value_take hl, h.entries]
  stop := by
    simpa only [List.length_cons, Nat.add_right_cancel_iff, Nat.add_lt_add_iff_right] using h.stop

theorem exists_tiles (count : Nat) (bytes : List UInt8) :
    ∃ blocks tail, Tiles count bytes blocks tail (read (.replicate count .number) bytes) := by
  induction count generalizing bytes with
  | zero => exact ⟨[], bytes, rfl, nofun, rfl, .inl ⟨rfl, rfl, rfl⟩⟩
  | succ count ih =>
    have hread : Kind.number.read bytes = ((outcome bytes).1.map .number, (outcome bytes).2) := by
      rw [Kind.read, read_eq_outcome]
    rw [List.replicate_succ]
    cases hl : last? maxLength bytes with
    | some k =>
      have ho : outcome bytes =
          (.ok (groupSum bytes (k + 1) % word64Count), bytes.drop (k + 1)) := by
        rw [outcome, hl]
      obtain ⟨blocks, tail, h⟩ := ih (bytes.drop (k + 1))
      simp only [read, hread, ho, Except.map]
      exact ⟨_, tail, h.cons hl⟩
    | none =>
      obtain ⟨e, ho⟩ : ∃ e, (outcome bytes).1 = .error e := by
        rw [outcome, hl]
        dsimp only
        split
        · exact ⟨_, rfl⟩
        · exact ⟨_, rfl⟩
      simp only [read, hread, ho, Except.map]
      exact ⟨[], bytes, rfl, nofun, rfl, .inr ⟨Nat.succ_pos _, e, rfl, Prod.ext ho rfl⟩⟩

/--
A reader accepts exactly the packed numbers and takes exactly their bytes: the first of ten bytes
without the top bit ends the number, which is the sum of its groups, kept to 64 bits. Without one
the reader runs into the end of its data, or gives up after the tenth byte. A machine that puts the
groups into a word does the same. So of any number of
numbers in a row each takes its own bytes, and what is left begins right behind the last one.
-/
theorem numbers_read_exactly (bytes : List UInt8) :
    Packed.read bytes = outcome bytes ∧
      ((readWord bytes).1.map UInt64.toNat, (readWord bytes).2) = outcome bytes ∧
      Packed.Error.ended.toIoError.kind = .unexpectedEof ∧
      Packed.Error.tooLong.toIoError.kind = .invalidData ∧
      ∀ count, ∃ blocks tail,
        Tiles count bytes blocks tail (read (.replicate count .number) bytes) :=
  ⟨read_eq_outcome bytes, (readWord_eq bytes).trans (read_eq_outcome bytes), rfl, rfl,
    fun count => exists_tiles count bytes⟩

/-- The top bits of a tenth byte are lost, and an eleventh byte is not looked at. -/
example : read (.replicate 3 .number) [5, 255, 255, 255, 255, 255, 255, 255, 255, 255, 127, 128] =
    ⟨[.number 5, .number 0xFFFFFFFFFFFFFFFF], some .ended, []⟩ := by
  decide

end Stream
end RamRestore
