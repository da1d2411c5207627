import RamRestore.Memory

/-! # LZ4 sequences

What an LZ4 block says, apart from how it is decoded. A sequence appends literal bytes and then
a stretch of what has been produced by then; the last one has literals only.
-/

namespace RamRestore.Lz4

/-- Literal bytes and a match: so many bytes, each one `offset` places behind the one it repeats. -/
structure Sequence where
  literals : List UInt8
  offset : Nat
  length : Nat
  offset_pos : 0 < offset
  offset_lt : offset < 65536
  four_le_length : 4 ≤ length

/-- Sequences, and the literals behind them. The low bits of the last token mean nothing. -/
structure Block where
  sequences : List Sequence
  literals : List UInt8
  unused : Fin 16

def nibble (n : Nat) : Nat := min n 15

/-- The rest of a length behind its token: bytes of 255, and one that is less. -/
def lengthBytes (n : Nat) : List UInt8 :=
  if n < 15 then []
  else List.replicate ((n - 15) / 255) 255 ++ [UInt8.ofNat ((n - 15) % 255)]

def token (literals low : Nat) : UInt8 := UInt8.ofNat (16 * nibble literals + low)

/-- What `n` bytes come to that repeat the last `offset` bytes, over and over if need be. -/
def stretch (out : List UInt8) (offset n : Nat) : List UInt8 :=
  (List.range n).map fun k => out.getD (out.length - offset + k % offset) 0

namespace Sequence

def encode (s : Sequence) : List UInt8 :=
  token s.literals.length (nibble (s.length - 4)) ::
    (lengthBytes s.literals.length ++ s.literals ++
      (UInt8.ofNat s.offset :: UInt8.ofNat (s.offset / 256) :: lengthBytes (s.length - 4)))

def produce (out : List UInt8) (s : Sequence) : List UInt8 :=
  out ++ s.literals ++ stretch (out ++ s.literals) s.offset s.length

def Reaches (out : List UInt8) (s : Sequence) : Prop := s.offset ≤ (out ++ s.literals).length

def AllReach : List UInt8 → List Sequence → Prop
  | _, [] => True
  | out, s :: ss => Reaches out s ∧ AllReach (produce out s) ss

end Sequence

namespace Block

def encode (b : Block) : List UInt8 :=
  b.sequences.flatMap Sequence.encode ++
    token b.literals.length b.unused :: (lengthBytes b.literals.length ++ b.literals)

/-- What a block stands for. -/
def contents (b : Block) : List UInt8 := b.sequences.foldl Sequence.produce [] ++ b.literals

def WellFormed (b : Block) : Prop := Sequence.AllReach [] b.sequences

end Block

end RamRestore.Lz4
