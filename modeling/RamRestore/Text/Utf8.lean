/-! # Reading UTF-8

Bytes are read one character at a time. Where no character starts, the longest run of
bytes that could have begun one, or else a single byte, counts as one fault. Reading is
either strict, when a fault makes it fail, or lossy, when a fault is read as U+FFFD.
-/

namespace RamRestore.Text

/-- The second bytes that may follow a leading byte, and how many bytes follow in all. -/
def follow (lead : Nat) : Option (Nat × Nat × Nat) :=
  if 0xC2 ≤ lead ∧ lead ≤ 0xDF then some (0x80, 0xBF, 1)
  else if lead = 0xE0 then some (0xA0, 0xBF, 2)
  else if lead = 0xED then some (0x80, 0x9F, 2)
  else if 0xE1 ≤ lead ∧ lead ≤ 0xEF then some (0x80, 0xBF, 2)
  else if lead = 0xF0 then some (0x90, 0xBF, 3)
  else if 0xF1 ≤ lead ∧ lead ≤ 0xF3 then some (0x80, 0xBF, 3)
  else if lead = 0xF4 then some (0x80, 0x8F, 3)
  else none

def leadBits (lead count : Nat) : Nat :=
  if count = 1 then lead % 32 else if count = 2 then lead % 16 else lead % 8

/-- Takes up to `count` more bytes, the next one between `low` and `high`. -/
def continuation (sum low high : Nat) : (count : Nat) → List UInt8 → Option Char × List UInt8
  | 0, rest => (some (Char.ofNat sum), rest)
  | _ + 1, [] => (none, [])
  | count + 1, b :: rest =>
    if low ≤ b.toNat ∧ b.toNat ≤ high then
      continuation (sum * 64 + b.toNat % 64) 0x80 0xBF count rest
    else (none, b :: rest)

theorem length_continuation_le (sum low high count : Nat) (bytes : List UInt8) :
    (continuation sum low high count bytes).2.length ≤ bytes.length := by
  induction count generalizing sum low high bytes with
  | zero => simp [continuation]
  | succ count ih =>
    cases bytes with
    | nil => simp [continuation]
    | cons b rest =>
      rw [continuation]
      split
      · exact Nat.le_trans (ih ..) (by simp)
      · simp

/-- Reads the character behind a leading byte; `none` is a fault. -/
def charFrom (lead : UInt8) (rest : List UInt8) : Option Char × List UInt8 :=
  if lead.toNat < 0x80 then (some (Char.ofNat lead.toNat), rest)
  else match follow lead.toNat with
    | none => (none, rest)
    | some (low, high, count) => continuation (leadBits lead.toNat count) low high count rest

theorem length_charFrom_le (lead : UInt8) (rest : List UInt8) :
    (charFrom lead rest).2.length ≤ rest.length := by
  unfold charFrom
  split
  · simp
  · split
    · simp
    · exact length_continuation_le ..

def chars : List UInt8 → List (Option Char)
  | [] => []
  | lead :: rest => (charFrom lead rest).1 :: chars (charFrom lead rest).2
termination_by bytes => bytes.length
decreasing_by
  have := length_charFrom_le lead rest
  simp only [List.length_cons]
  omega

def decode? (bytes : List UInt8) : Option String :=
  ((chars bytes).mapM id).map String.ofList

/-- The text of any bytes, with U+FFFD for each fault. -/
def decodeLossy (bytes : List UInt8) : String :=
  String.ofList ((chars bytes).map (·.getD (Char.ofNat 0xFFFD)))

def encode (text : String) : List UInt8 := text.toList.flatMap String.utf8EncodeChar

end RamRestore.Text
