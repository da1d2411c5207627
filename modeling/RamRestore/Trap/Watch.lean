import RamRestore.Guest
import RamRestore.Trap

/-! # A trap as a watch

Registering a range lets its frames be trapped; placing a page gives trapped frames their
contents and lets the threads go on that wait for them. Pages of memory that the guest gave
back are not placed.
-/

namespace RamRestore.Trap

open Memory (frameSize framesOf)

def refusedRange : IoError := ⟨.other, "System error"⟩

def refusedCopy : IoError := ⟨.other, "Copy failed"⟩

/-- Only the first frames of a page were placed; the next had contents already. -/
def partialCopy : IoError := ⟨.other, "Copy partially succeeded"⟩

def notOpen : IoError := ⟨.other, "userfaultfd is not open"⟩

def armedAlready : IoError := ⟨.other, "fault handler already started"⟩

def isFrameRange (start length : Nat) : Bool :=
  isAligned start && isAligned length && length != 0

def register (t : Trap) (start length : Nat) : Except IoError Trap :=
  if !t.available then .error notOpen
  else
    let ks := t.framesIn start length
    if !isFrameRange start length || ks.isEmpty then .error refusedRange
    else .ok (t.update ks ({ · with trapped := true }))

def arm (t : Trap) : Except IoError Trap :=
  if !t.available then .error notOpen
  else if t.armed then .error armedAlready
  else .ok { t with armed := true }

def isTrapped (t : Trap) (start length : Nat) : Bool :=
  t.isMapped start length && (t.framesIn start length).all fun k => (t.frames.get k).trapped

/--
Copies a page, frame by frame, up to the first frame that has contents. That the first frame
has contents means that somebody else placed the page.
-/
def copy (t : Trap) (a : Nat) (data : Bytes) : Option IoError × Trap :=
  if !isFrameRange a data.size || !t.isTrapped a data.size then (some refusedCopy, t)
  else
    let ks := framesOf a data.size
    let free := ks.takeWhile fun k => !(t.frames.get k).present
    let memory := t.memory.write a (data.extract 0 (free.length * frameSize))
    let placed := ({ t with memory }.update free ({ · with present := true })).wake free
    (if free.isEmpty || free.length = ks.length then none else some partialCopy, placed)

/-- The address was given back while it was watched. -/
def wasGivenBack (t : Trap) (a : Nat) : Bool := (t.frames.get (a / frameSize)).givenBack

/-- Places a page, once everything given back so far has been noticed. -/
def place (t : Trap) (a : Nat) (data : Bytes) : Option IoError × Trap :=
  if t.wasGivenBack a then (none, t)
  else
    let t := if t.isGivingBack then t.notice else t
    if t.wasGivenBack a then (none, t) else t.copy a data

def write (t : Trap) (start : Nat) (data : Bytes) : Trap :=
  { t with memory := t.memory.write start data }.update (t.framesIn start data.size)
    ({ · with present := true })

instance : Guest Trap where
  supported := Trap.available
  valid := Trap.available
  register := register
  arm := arm
  place := place
  read t start length :=
    (t.memory.read start length, t.update (t.framesIn start length) ({ · with present := true }))
  write := write
  spoil t start length data := t.write start ((t.leftover data).extract 0 length)

end RamRestore.Trap
