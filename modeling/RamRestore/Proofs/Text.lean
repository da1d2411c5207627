import RamRestore.Text.Utf8

/-! # Text is read back

The bytes of a character are read as that character, whatever stands behind them, so a text is
read back from its bytes.
-/

namespace RamRestore.Text

theorem toNat_ofNat {n : Nat} (h : n < 256) : (UInt8.ofNat n).toNat = n := by
  rw [UInt8.toNat_ofNat', Nat.mod_eq_of_lt h]

theorem continuation_ofNat {sum low high count n : Nat} (hn : n < 256) (h : low ≤ n ∧ n ≤ high)
    (rest : List UInt8) :
    continuation sum low high (count + 1) (UInt8.ofNat n :: rest) =
      continuation (sum * 64 + n % 64) 0x80 0xBF count rest := by
  rw [continuation, toNat_ofNat hn, if_pos h]

theorem charFrom_ofNat {n low high count : Nat} (hn : 0x80 ≤ n) (hlt : n < 256)
    (hf : follow n = some (low, high, count)) (rest : List UInt8) :
    charFrom (UInt8.ofNat n) rest = continuation (leadBits n count) low high count rest := by
  rw [charFrom, toNat_ofNat hlt, if_neg (by omega), hf]

theorem follow_three {n : Nat} (h : 0x800 ≤ n) (hlt : n ≤ 0xFFFF) (hs : n < 0xD800 ∨ 0xDFFF < n) :
    ∃ low high, follow (n / 4096 % 16 + 224) = some (low, high, 2) ∧
      low ≤ n / 64 % 64 + 128 ∧ n / 64 % 64 + 128 ≤ high := by
  unfold follow
  rw [if_neg (by omega)]
  split
  · exact ⟨_, _, rfl, by omega, by omega⟩
  · split
    · exact ⟨_, _, rfl, by omega, by omega⟩
    · rw [if_pos (by omega)]
      exact ⟨_, _, rfl, by omega, by omega⟩

theorem follow_four {n : Nat} (h : 0xFFFF < n) (hlt : n < 0x110000) :
    ∃ low high, follow (n / 262144 % 8 + 240) = some (low, high, 3) ∧
      low ≤ n / 4096 % 64 + 128 ∧ n / 4096 % 64 + 128 ≤ high := by
  unfold follow
  rw [if_neg (by omega), if_neg (by omega), if_neg (by omega), if_neg (by omega)]
  split
  · exact ⟨_, _, rfl, by omega, by omega⟩
  · split
    · exact ⟨_, _, rfl, by omega, by omega⟩
    · rw [if_pos (by omega)]
      exact ⟨_, _, rfl, by omega, by omega⟩

theorem charFrom_encodeChar (c : Char) (rest : List UInt8) :
    ∃ lead tail, String.utf8EncodeChar c = lead :: tail ∧
      charFrom lead (tail ++ rest) = (some c, rest) := by
  have hc : Char.ofNat c.val.toNat = c := Char.ofNat_toNat c
  have hvalid : c.val.toNat < 0xD800 ∨ 0xDFFF < c.val.toNat ∧ c.val.toNat < 0x110000 := c.valid
  unfold String.utf8EncodeChar
  generalize c.val.toNat = n at hc hvalid
  dsimp only
  split
  · refine ⟨_, _, rfl, ?_⟩
    rw [charFrom, toNat_ofNat (by omega), if_pos (by omega), hc]
    rfl
  · split
    · refine ⟨_, _, rfl, ?_⟩
      have hf : follow (n / 64 % 32 + 192) = some (0x80, 0xBF, 1) := if_pos (by omega)
      rw [charFrom_ofNat (by omega) (by omega) hf, List.singleton_append,
        continuation_ofNat (by omega) (by omega), continuation, leadBits, if_pos rfl]
      rw [show (n / 64 % 32 + 192) % 32 * 64 + (n % 64 + 128) % 64 = n by omega, hc]
    · split
      · refine ⟨_, _, rfl, ?_⟩
        obtain ⟨low, high, hf, hsecond⟩ := follow_three (n := n) (by omega) (by omega) (by omega)
        rw [charFrom_ofNat (by omega) (by omega) hf, List.cons_append, List.singleton_append,
          continuation_ofNat (by omega) hsecond, continuation_ofNat (by omega) (by omega),
          continuation, leadBits, if_neg (by decide), if_pos rfl]
        rw [show ((n / 4096 % 16 + 224) % 16 * 64 + (n / 64 % 64 + 128) % 64) * 64 +
          (n % 64 + 128) % 64 = n by omega, hc]
      · refine ⟨_, _, rfl, ?_⟩
        obtain ⟨low, high, hf, hsecond⟩ := follow_four (n := n) (by omega) (by omega)
        rw [charFrom_ofNat (by omega) (by omega) hf, List.cons_append, List.cons_append,
          List.singleton_append, continuation_ofNat (by omega) hsecond,
          continuation_ofNat (by omega) (by omega), continuation_ofNat (by omega) (by omega),
          continuation, leadBits, if_neg (by decide), if_neg (by decide)]
        rw [show (((n / 262144 % 8 + 240) % 8 * 64 + (n / 4096 % 64 + 128) % 64) * 64 +
          (n / 64 % 64 + 128) % 64) * 64 + (n % 64 + 128) % 64 = n by omega, hc]

theorem chars_encodeChar_append (c : Char) (rest : List UInt8) :
    chars (String.utf8EncodeChar c ++ rest) = some c :: chars rest := by
  obtain ⟨lead, tail, hc, hread⟩ := charFrom_encodeChar c rest
  rw [hc, List.cons_append, chars, hread]

theorem chars_encodeChars (cs : List Char) :
    chars (cs.flatMap String.utf8EncodeChar) = cs.map some := by
  induction cs with
  | nil => rw [List.flatMap_nil, chars, List.map_nil]
  | cons c cs ih => rw [List.flatMap_cons, chars_encodeChar_append, ih, List.map_cons]

theorem decode?_encodeChars (cs : List Char) :
    decode? (cs.flatMap String.utf8EncodeChar) = some (String.ofList cs) := by
  have hall : (cs.map some).mapM id = some cs := by
    induction cs with
    | nil => rfl
    | cons c cs ih =>
      rw [List.map_cons, List.mapM_cons, ih]
      rfl
  rw [decode?, chars_encodeChars, hall, Option.map_some]

end RamRestore.Text
