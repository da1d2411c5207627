import RamRestore.Packed

/-! # Position deltas

A delta is a signed number whose sign sits in the lowest bit of a packed number and
whose magnitude is the rest. The code 1 is a second way to write zero. Codes and deltas are
computed without bounds here, and once more as a machine does it on words of 64 bits.
-/

namespace RamRestore.Delta

def encode (d : Int) : Nat :=
  if d < 0 then 2 * d.natAbs + 1 else 2 * d.natAbs

def decode (n : Nat) : Int :=
  if n % 2 = 1 then -(n / 2 : Nat) else (n / 2 : Nat)

def read (bytes : List UInt8) : Except Packed.Error Int × List UInt8 :=
  let (n, rest) := Packed.read bytes
  (n.map decode, rest)

def write (d : Int) : List UInt8 := Packed.write (encode d)

/-- The code of a delta, in a word. -/
def encodeWord (d : Int64) : UInt64 :=
  if d < 0 then d.abs.toUInt64 <<< 1 ||| 1 else d.toUInt64 <<< 1

def decodeWord (n : UInt64) : Int64 :=
  let magnitude := (n >>> 1).toInt64
  if n &&& 1 = 1 then -magnitude else magnitude

end RamRestore.Delta
