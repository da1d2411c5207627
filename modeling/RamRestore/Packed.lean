import RamRestore.IoError
import RamRestore.Word

/-! # Packed numbers

A packed number is written in groups of seven bits, lowest group first, one group
to a byte. The top bit of a byte says that another group follows. Sixty-four bits
never need more than ten groups, and a reader gives up after the tenth. Numbers are read
without bounds here, and once more as a machine does it in a word of 64 bits.
-/

namespace RamRestore.Packed

/-- The most groups a reader looks at. -/
def maxLength : Nat := 10

inductive Error where
  /-- The bytes ended inside the number. -/
  | ended
  /-- The tenth group announced another one. -/
  | tooLong
  deriving DecidableEq, Repr

/--
Reads one number, adding the groups at the given weight to `sum`. Bytes that were
looked at stay consumed, also when no number comes out.
-/
def readGroups : (groups weight sum : Nat) → List UInt8 → Except Error Nat × List UInt8
  | 0, _, _, rest => (.error .tooLong, rest)
  | _ + 1, _, _, [] => (.error .ended, [])
  | groups + 1, weight, sum, b :: rest =>
    let sum := sum + b.toNat % 128 * weight
    if b.toNat < 128 then (.ok (sum % word64Count), rest)
    else readGroups groups (weight * 128) sum rest

def read (bytes : List UInt8) : Except Error Nat × List UInt8 :=
  readGroups maxLength 1 0 bytes

/-- Reads one number, putting the groups into a word at the given shift. -/
def readWordGroups : (groups : Nat) → (shift word : UInt64) → List UInt8 →
    Except Error UInt64 × List UInt8
  | 0, _, _, rest => (.error .tooLong, rest)
  | _ + 1, _, _, [] => (.error .ended, [])
  | groups + 1, shift, word, b :: rest =>
    let word := word ||| (b &&& 0x7F).toUInt64 <<< shift
    if b &&& 0x80 = 0 then (.ok word, rest) else readWordGroups groups (shift + 7) word rest

def readWord (bytes : List UInt8) : Except Error UInt64 × List UInt8 :=
  readWordGroups maxLength 0 0 bytes

/-- Writes a number in as few groups as it needs. -/
def write (n : Nat) : List UInt8 :=
  if n < 128 then [UInt8.ofNat n]
  else UInt8.ofNat (n % 128 + 128) :: write (n / 128)
termination_by n

def Error.toIoError : Error → IoError
  | .ended => .endOfData
  | .tooLong => .numberTooLong

/-- What a receiver with room for `room` bytes makes of `bytes`: all of them or none. -/
def fit (room : Nat) (bytes : List UInt8) : Except IoError (List UInt8) :=
  if bytes.length ≤ room then .ok bytes else .error .noRoom

end RamRestore.Packed
