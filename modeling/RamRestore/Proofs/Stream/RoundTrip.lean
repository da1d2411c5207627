import RamRestore.Proofs.Packed
import RamRestore.Proofs.Stream.Groups

/-! # Streams are read back

The bytes of an entry say themselves where they end, so a stream is read back entry by entry,
whatever stands behind it. No other bytes that are read as the same number are fewer.
-/

namespace RamRestore

namespace Packed

theorem groupSum_lt (bytes : List UInt8) (count : Nat) : groupSum bytes count < 128 ^ count := by
  induction count generalizing bytes with
  | zero => simp [groupSum]
  | succ count ih =>
    cases bytes with
    | nil => simp [groupSum]
    | cons b bytes =>
      have := ih bytes
      rw [groupSum_cons, Nat.pow_succ]
      omega

theorem length_write_pos (n : Nat) : 0 < (write n).length := by
  rw [write]
  split
  · exact Nat.one_pos
  · exact Nat.succ_pos _

theorem length_write_le {groups n : Nat} (h : n < 128 ^ (groups + 1)) :
    (write n).length ≤ groups + 1 := by
  induction groups generalizing n with
  | zero =>
    rw [write, if_pos (by omega)]
    exact Nat.le_refl 1
  | succ groups ih =>
    rw [write]
    split
    · exact Nat.succ_le_succ (Nat.zero_le _)
    · have hq : n / 128 < 128 ^ (groups + 1) := by
        rw [Nat.div_lt_iff_lt_mul (by decide), ← Nat.pow_succ]
        exact h
      exact Nat.succ_le_succ (ih hq)

/-- The bytes that are read as a number are no fewer than those that are written for it. -/
theorem length_write_le_of_read {n : Nat} {bytes rest : List UInt8}
    (h : read bytes = (.ok n, rest)) : (write n).length + rest.length ≤ bytes.length := by
  rw [read_eq_outcome, outcome] at h
  split at h
  · rename_i k hl
    obtain ⟨hn, hrest⟩ := Prod.mk.inj h
    obtain ⟨-, hk⟩ := lt_of_last? hl
    have hlt : n < 128 ^ (k + 1) := by
      rw [← Except.ok.inj hn]
      exact (Nat.mod_le _ _).trans_lt (groupSum_lt bytes (k + 1))
    have hle := length_write_le hlt
    rw [← hrest, List.length_drop]
    omega
  · split at h
    · cases h
    · cases h

end Packed

namespace Stream

namespace Entry

def code : Entry → Nat
  | .number n => n
  | .delta d => Delta.encode d

theorem write_eq (e : Entry) : e.write = Packed.write e.code := by
  cases e <;> rfl

theorem code_lt {e : Entry} (h : e.Fits) : e.code < word64Count := by
  cases e with
  | number n => exact h
  | delta d => exact Delta.encode_lt h

theorem read_write {e : Entry} (h : e.Fits) (tail : List UInt8) :
    e.kind.read (e.write ++ tail) = (.ok e, tail) := by
  have hread := Packed.read_write (code_lt h) tail
  rw [write_eq]
  cases e with
  | number n =>
    rw [kind, Kind.read, hread]
    rfl
  | delta d =>
    rw [kind, Kind.read, Delta.read, hread]
    simp only [code, Except.map, Delta.decode_encode]

theorem write_eq_of_isPrefix {e e' : Entry} (h : e.Fits) (h' : e'.Fits)
    (hp : e.write <+: e'.write) : e.write = e'.write := by
  obtain ⟨tail, htail⟩ := hp
  have hread := Packed.read_write (code_lt h) tail
  have hread' := Packed.read_write (code_lt h') []
  rw [← write_eq, htail, write_eq, ← List.append_nil (Packed.write e'.code), hread'] at hread
  obtain ⟨-, rfl⟩ := Prod.mk.inj hread
  rw [← htail, List.append_nil]

end Entry

theorem read_write {es : List Entry} (h : ∀ e ∈ es, e.Fits) (tail : List UInt8) :
    read (es.map Entry.kind) (write es ++ tail) = ⟨es, none, tail⟩ := by
  induction es with
  | nil => rfl
  | cons e es ih =>
    obtain ⟨he, hes⟩ := List.forall_mem_cons.1 h
    rw [write, List.flatMap_cons, List.append_assoc, List.map_cons, read, Entry.read_write he]
    dsimp only
    rw [← write, ih hes]

/--
A stream is read back: a reader that asks for the kinds of its entries gets all of them, and what
stands behind them is left. No entry begins with the bytes of another one and goes on. A number
is written in one byte to ten, and no fewer bytes are read as that number.
-/
theorem entries_read_back :
    (∀ es : List Entry, (∀ e ∈ es, e.Fits) → ∀ tail,
        read (es.map Entry.kind) (write es ++ tail) = ⟨es, none, tail⟩) ∧
      (∀ e e' : Entry, e.Fits → e'.Fits → e.write <+: e'.write → e.write = e'.write) ∧
      ∀ n < word64Count, 1 ≤ (Packed.write n).length ∧
        (Packed.write n).length ≤ Packed.maxLength ∧
        ∀ bytes rest, Packed.read bytes = (.ok n, rest) →
          (Packed.write n).length + rest.length ≤ bytes.length := by
  refine ⟨fun es => read_write, fun e e' => Entry.write_eq_of_isPrefix, fun n hn => ?_⟩
  have hten : n < 128 ^ (9 + 1) := hn.trans (by decide)
  exact ⟨Packed.length_write_pos n, Packed.length_write_le hten,
    fun _ _ => Packed.length_write_le_of_read⟩

def sampleEntries : List Entry :=
  [.number 300, .delta (-1), .number 0xFFFFFFFFFFFFFFFF, .delta (-0x7FFFFFFFFFFFFFFF), .delta 0]

theorem entries_read_back_sample :
    read [.number, .delta, .number, .delta, .delta] (write sampleEntries ++ [255]) =
        ⟨sampleEntries, none, [255]⟩ ∧
      Packed.read [0xAC, 0x82, 0, 7] = (.ok 300, [7]) ∧ (Packed.write 300).length + 1 ≤ 4 := by
  obtain ⟨hstream, -, hshort⟩ := entries_read_back
  have hread : Packed.read [0xAC, 0x82, 0, 7] = (.ok 300, [7]) := rfl
  exact ⟨hstream sampleEntries (by decide) [255], hread,
    (hshort 300 (by decide)).2.2 _ _ hread⟩

end Stream
end RamRestore
