import RamRestore.IoError
import RamRestore.Memory

/-! # Guest memory under a watch

What a loader asks of the memory it restores and of the watch that may guard it. A watch
traps the first access to the ranges registered with it; placing a page is the only way
to write trapped memory.
-/

namespace RamRestore

/-- What the idle callback of a watch wants from its host next. -/
inductive IdleResult where
  /-- Background loading is over. -/
  | allDone
  /-- There is more to do at once. -/
  | runAgain
  /-- There is nothing to do right now. -/
  | wait
  deriving DecidableEq, Repr

class Guest (W : Type) where
  /-- Whether the host has a watch at all. -/
  supported : W → Bool
  /-- Whether a watch that was created can be used. -/
  valid : W → Bool
  /-- Registers the range of the given start and length. -/
  register : W → (start length : Nat) → Except IoError W
  /-- Starts trapping; every range is registered by then. -/
  arm : W → Except IoError W
  /-- Places a page in registered memory. A failure is returned with what it left behind. -/
  place : W → (address : Nat) → Bytes → Option IoError × W
  /-- Reads memory that is not registered. -/
  read : W → (start length : Nat) → Bytes × W
  /-- Writes memory that is not registered. -/
  write : W → (start : Nat) → Bytes → W
  /-- Leaves in unregistered memory what is there when these bytes could not be unpacked into it. -/
  spoil : W → (start length : Nat) → Bytes → W

end RamRestore
