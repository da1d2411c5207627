import RamRestore.Load

/-! # Starting background work

A lazy load registers the memory of the pages it has to read, sets the background reader
and its queues up, and only then lets the watch trap.
-/

namespace RamRestore.Load

variable {W : Type} [Guest W]

def registerAll (guest : W) : List (Nat × Nat) → Option LoadError × W
  | [] => (none, guest)
  | (start, length) :: ranges =>
    match Guest.register guest start length with
    | .ok guest => registerAll guest ranges
    | .error cause => (some (.registerRange start length cause), guest)

/-- Starts background work. Once there are queues, they stay where the start fails. -/
def startBackground (l : Load W) (threads : Threads) : Option LoadError × Load W :=
  match registerAll l.guest l.index.ranges with
  | (some cause, guest) => (some cause, { l with guest })
  | (none, guest) =>
    let l := { l with guest, cursor := some {} }
    match threads.refusesReader with
    | some cause => (some (.io cause), l)
    | none =>
      let l := { l with reader := .waiting }
      match Guest.arm guest with
      | .ok guest => (none, { l with guest })
      | .error cause => (some (.io cause), l)

end RamRestore.Load
