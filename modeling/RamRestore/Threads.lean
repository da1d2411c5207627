import RamRestore.IoError

/-! # Threads of the host

A load may need threads of its own: workers that unpack pages, or the background reader. A host
does not always grant them.
-/

namespace RamRestore

structure Threads where
  /-- How many threads run at once, where the host can tell. -/
  cores : Option Nat := some 1
  /-- The error of setting up so many workers, where that fails. -/
  refusesPool : Nat → Option IoError := fun _ => none
  /-- The error of setting the background reader up, where that fails. -/
  refusesReader : Option IoError := none

end RamRestore
