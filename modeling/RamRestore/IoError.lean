/-! # Input and output errors

An error of a source, a watch or the host carries its kind and the text that goes
with it. The errors that the library itself raises are named here.
-/

namespace RamRestore

namespace IoError

inductive Kind where
  | notFound
  | permissionDenied
  | connectionRefused
  | connectionReset
  | connectionAborted
  | notConnected
  | addrInUse
  | addrNotAvailable
  | brokenPipe
  | alreadyExists
  | wouldBlock
  | invalidInput
  | invalidData
  | timedOut
  | writeZero
  | interrupted
  | unsupported
  | unexpectedEof
  | outOfMemory
  | isADirectory
  | notADirectory
  | other
  deriving DecidableEq, Repr

end IoError

structure IoError where
  kind : IoError.Kind
  message : String
  deriving DecidableEq, Repr

namespace IoError

/-- The data ended before everything that was asked for had been read. -/
def endOfData : IoError := ⟨.unexpectedEof, "failed to fill whole buffer"⟩

/-- A packed number went on after its tenth byte. -/
def numberTooLong : IoError := ⟨.invalidData, "packed number is longer than 10 bytes"⟩

def noRoom : IoError := ⟨.writeZero, "failed to write whole buffer"⟩

/-- The background reader went away without having said that it was done. -/
def readerStopped : IoError := ⟨.other, "background reader stopped unexpectedly"⟩

def missingFile : IoError := ⟨.notFound, "No such file or directory (os error 2)"⟩

/-- Out of address space, or not mapped. -/
def noMemory : IoError := ⟨.outOfMemory, "Cannot allocate memory (os error 12)"⟩

def noThreads : IoError := ⟨.other, "Resource temporarily unavailable (os error 11)"⟩

def badArgument : IoError := ⟨.invalidInput, "Invalid argument (os error 22)"⟩

end IoError

end RamRestore
