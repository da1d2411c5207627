import RamRestore.IoError
import RamRestore.Memory

/-! # Snapshot sources

A source answers positioned reads: every read names its own offset, and what it gets back
hangs on that offset alone. A read may return less than was asked for, may fail, or may be
interrupted, which only means that it has to be asked again.
-/

namespace RamRestore

structure Source where
  data : Bytes
  /-- The most bytes that one read at an offset returns. -/
  most : Nat → Nat
  /-- The failure of every read of so many bytes at an offset, where there is one. -/
  failure : (offset wanted : Nat) → Option IoError := fun _ _ => none
  /-- How many more reads at an offset are interrupted. -/
  interruptions : Table Nat := .const 0
  /-- Offsets at which a read ends the background reader. -/
  lethal : List Nat := []
  /-- Offsets at which reads of the background reader do not return for now. -/
  held : List Nat := []
  /-- Offsets at which reads of the fault handler do not return for now. -/
  heldFaults : List Nat := []

namespace Source

/-- A source that answers every read at once and in full. -/
def ofBytes (data : Bytes) : Source := { data, most := fun _ => data.size }

/-- Files end within the signed words of 64 bits; a read across their end is refused. -/
def fileFailure (offset wanted : Nat) : Option IoError :=
  if 0x8000000000000000 ≤ offset + wanted then some .badArgument else none

/-- A source that is a file. -/
def ofFile (data : Bytes) : Source := { ofBytes data with failure := fileFailure }

inductive Answer where
  | bytes (b : Bytes)
  | interrupted
  | failed (cause : IoError)

/-- What a read of `wanted` bytes at an offset returns. No bytes mean the end of the data. -/
def answer (s : Source) (offset wanted : Nat) : Answer :=
  if 0 < s.interruptions.get offset then .interrupted
  else match s.failure offset wanted with
    | some cause => .failed cause
    | none => .bytes (s.data.extract offset (offset + min wanted (s.most offset)))

/-- The source after a read at an offset. -/
def after (s : Source) (offset : Nat) : Source :=
  { s with interruptions := s.interruptions.set offset (s.interruptions.get offset - 1) }

/-- The bytes that are asked for at once where a source is read from an offset on. -/
def window : Nat := 8192

/-- The bytes that one read into a window returns, interruptions aside. -/
def windowSize (s : Source) (offset : Nat) : Nat :=
  min (min window (s.most offset)) (s.data.size - offset)

/--
All bytes from an offset on, as reading them window by window brings them, and the error
that asking for more of them meets.
-/
def stream (s : Source) (offset : Nat) : List UInt8 × IoError :=
  match s.failure offset window with
  | some cause => ([], cause)
  | none =>
    if s.windowSize offset = 0 then ([], .endOfData)
    else
      let (bytes, ending) := s.stream (offset + s.windowSize offset)
      ((s.data.extract offset (offset + s.windowSize offset)).toList ++ bytes, ending)
termination_by s.data.size - offset
decreasing_by
  simp only [windowSize] at *
  omega

def afterStream (s : Source) (offset count : Nat) : Source :=
  if count = 0 then s
  else
    let s' := { s with interruptions := s.interruptions.set offset 0 }
    if (s.failure offset window).isSome || s.windowSize offset = 0 then s'
    else s'.afterStream (offset + s.windowSize offset) (count - s.windowSize offset)
termination_by count
decreasing_by
  simp_all only [Bool.or_eq_true, decide_eq_true_eq, not_or]
  omega

end Source

inductive ReadOutcome where
  | got (count : Nat)
  | interrupted
  | failed (kind : IoError.Kind)
  | died
  deriving DecidableEq, Repr

structure ReadCall where
  offset : Nat
  wanted : Nat
  outcome : ReadOutcome
  deriving DecidableEq, Repr

end RamRestore
