import RamRestore.Guest

/-! # A watch without a trap

Memory whose accesses nobody traps: pages are placed by copying them, faults and idle time
are reported by whoever uses it. Which of its operations it refuses is given beforehand.
-/

namespace RamRestore

structure PlainWatch where
  memory : Memory
  supported : Bool := true
  valid : Bool := true
  /-- The error of the registration of the given number, where it is refused. -/
  refusesRange : Nat → Option IoError := fun _ => none
  /-- The error of arming, where that is refused. -/
  refusesArming : Option IoError := none
  /-- The error of placing a page at an address, where it is refused. -/
  refusesPage : Nat → Option IoError := fun _ => none
  /-- What is written of a page before it turns out that these bytes cannot be unpacked. -/
  leftover : Bytes → Bytes := fun _ => #[]
  ranges : Array (Nat × Nat) := #[]
  armed : Bool := false
  /-- Address, length and acceptance of each page that was to be placed. -/
  placements : Array (Nat × Nat × Bool) := #[]

namespace PlainWatch

def register (w : PlainWatch) (start length : Nat) : Except IoError PlainWatch :=
  match w.refusesRange w.ranges.size with
  | some cause => .error cause
  | none => .ok { w with ranges := w.ranges.push (start, length) }

def arm (w : PlainWatch) : Except IoError PlainWatch :=
  match w.refusesArming with
  | some cause => .error cause
  | none => .ok { w with armed := true }

def place (w : PlainWatch) (address : Nat) (data : Bytes) : Option IoError × PlainWatch :=
  match w.refusesPage address with
  | some cause =>
    (some cause, { w with placements := w.placements.push (address, data.size, false) })
  | none =>
    (none, { w with
      memory := w.memory.write address data
      placements := w.placements.push (address, data.size, true) })

instance : Guest PlainWatch where
  supported := PlainWatch.supported
  valid := PlainWatch.valid
  register := register
  arm := arm
  place := place
  read w start length := (w.memory.read start length, w)
  write w start data := { w with memory := w.memory.write start data }
  spoil w start length data :=
    { w with memory := w.memory.write start ((w.leftover data).extract 0 length) }

end PlainWatch
end RamRestore
