import RamRestore.Delta

/-! # Streams of numbers

Numbers and deltas are packed one behind the other, and the reader knows of which kind the next
one is. It stops at the first one that it cannot read.
-/

namespace RamRestore.Stream

inductive Kind where
  | number
  | delta
  deriving DecidableEq, Repr

inductive Entry where
  | number (n : Nat)
  | delta (d : Int)
  deriving DecidableEq, Repr

namespace Entry

def kind : Entry → Kind
  | .number _ => .number
  | .delta _ => .delta

def write : Entry → List UInt8
  | .number n => Packed.write n
  | .delta d => Delta.write d

/-- A number of 64 bits, or a delta whose magnitude has 63. -/
def Fits : Entry → Prop
  | .number n => n < word64Count
  | .delta d => d.natAbs < 0x8000000000000000

instance : (e : Entry) → Decidable e.Fits
  | .number n => inferInstanceAs (Decidable (n < word64Count))
  | .delta d => inferInstanceAs (Decidable (d.natAbs < 0x8000000000000000))

end Entry

def Kind.read (k : Kind) (bytes : List UInt8) : Except Packed.Error Entry × List UInt8 :=
  match k with
  | .number => ((Packed.read bytes).1.map .number, (Packed.read bytes).2)
  | .delta => ((Delta.read bytes).1.map .delta, (Delta.read bytes).2)

/-- What was read of a stream, why the reader stopped early if it did, and what is left. -/
structure Reading where
  entries : List Entry
  failure : Option Packed.Error
  rest : List UInt8
  deriving DecidableEq, Repr

def read : List Kind → List UInt8 → Reading
  | [], bytes => ⟨[], none, bytes⟩
  | k :: ks, bytes =>
    match k.read bytes with
    | (.error e, rest) => ⟨[], some e, rest⟩
    | (.ok e, rest) => { read ks rest with entries := e :: (read ks rest).entries }

def write (es : List Entry) : List UInt8 := es.flatMap Entry.write

end RamRestore.Stream
