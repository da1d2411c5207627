import RamRestore.IoError
import RamRestore.Memory

/-! # Trapped memory

Memory that a trap watches by frames. A guest thread that touches a trapped frame without
contents waits until somebody places the frame or stops watching it. A thread that gives
memory back waits until that has been noticed; the memory is not watched from then on, and
reads as zeroes.
-/

namespace RamRestore

/-- What is known of one frame of memory. -/
structure Frame where
  /-- It has contents. A frame without contents reads as zeroes. -/
  present : Bool := false
  trapped : Bool := false
  /-- It was given back while it was trapped. -/
  givenBack : Bool := false
  deriving DecidableEq, Repr

inductive Action where
  | touch (a : Nat)
  | giveBack (start length : Nat)
  deriving DecidableEq, Repr

inductive ActionResult where
  | byte (b : UInt8)
  | gaveBack (failure : Option IoError)
  deriving DecidableEq, Repr

structure Thread where
  action : Action
  /-- The handler knows what the thread waits for. -/
  noticed : Bool := false
  result : Option ActionResult := none
  deriving DecidableEq, Repr

namespace Thread

/-- The thread, if it waits for one of the frames, goes on with what memory holds. -/
def wake (memory : Memory) (ks : List Nat) (th : Thread) : Thread :=
  match th.action, th.result with
  | .touch a, none =>
    if ks.contains (a / Memory.frameSize) then
      { th with result := some (.byte (memory.get a)) }
    else th
  | _, _ => th

/-- The fault of a thread that nobody has noticed, by the first address of its frame. -/
def fault? (th : Thread) : Option Nat :=
  match th.action, th.result, th.noticed with
  | .touch a, none, false => some (a / Memory.frameSize * Memory.frameSize)
  | _, _, _ => none

def givingBack? (th : Thread) : Option (Nat × Nat) :=
  match th.action, th.result with
  | .giveBack start length, none => some (start, length)
  | _, _ => none

end Thread

structure Trap where
  memory : Memory := .filled 0
  /-- Start and length of every mapped range, in whole frames. -/
  mapped : List (Nat × Nat)
  /-- The host lets programs trap memory. -/
  available : Bool := true
  /-- What is written of a page before it turns out that these bytes cannot be unpacked. -/
  leftover : Bytes → Bytes := fun _ => #[]
  /-- A handler serves the faults. -/
  armed : Bool := false
  frames : Table Frame := .const {}
  threads : List Thread := []
  /-- Addresses of the faults that the handler knows of and has not begun to serve. -/
  pending : List Nat := []

namespace Trap

open Memory (frameSize framesOf)

def isAligned (n : Nat) : Bool := n % frameSize = 0

def framesIn (t : Trap) (start length : Nat) : List Nat :=
  t.mapped.flatMap fun (s, n) =>
    framesOf (max s start) (min (s + n) (start + length) - max s start)

def update (t : Trap) (ks : List Nat) (f : Frame → Frame) : Trap :=
  { t with frames := ks.foldl (fun fs k => fs.set k (f (fs.get k))) t.frames }

/-- Whether touching an address makes a thread wait. -/
def traps (t : Trap) (a : Nat) : Bool :=
  let f := t.frames.get (a / frameSize)
  f.trapped && !f.present

def wake (t : Trap) (ks : List Nat) : Trap :=
  { t with threads := t.threads.map (Thread.wake t.memory ks) }

/-- Takes the contents of a range away and stops watching it. -/
def discard (t : Trap) (start length : Nat) : Trap :=
  let ks := t.framesIn start length
  let memory := ks.foldl (fun m k => m.fill (k * frameSize) frameSize 0) t.memory
  ({ t with memory }.update ks fun f => { givenBack := f.givenBack || f.trapped }).wake ks

def isMapped (t : Trap) (start length : Nat) : Bool :=
  (t.framesIn start length).length = (framesOf start length).length

def discardResult (t : Trap) (start length : Nat) : ActionResult :=
  .gaveBack (if t.isMapped start length then none else some .noMemory)

/-- The action as it begins: done at once, or waiting. -/
def begin (t : Trap) : Action → Thread × Trap
  | .touch a =>
    if t.traps a then ({ action := .touch a }, t)
    else
      ({ action := .touch a, result := some (.byte (t.memory.get a)) },
        t.update (t.framesIn a 1) ({ · with present := true }))
  | .giveBack start length =>
    let action := Action.giveBack start length
    if !isAligned start then ({ action, result := some (.gaveBack (some .badArgument)) }, t)
    else if (t.framesIn start length).any fun k => (t.frames.get k).trapped then ({ action }, t)
    else ({ action, result := some (t.discardResult start length) }, t.discard start length)

def spawn (t : Trap) (action : Action) : Trap :=
  let (thread, t) := t.begin action
  { t with threads := t.threads ++ [thread] }

def isGivingBack (t : Trap) : Bool := t.threads.any (·.givingBack?.isSome)

/-- Something happened that the handler does not know of. -/
def hasNews (t : Trap) : Bool := t.isGivingBack || t.threads.any (·.fault?.isSome)

def discardAll (t : Trap) : Trap :=
  let ranges := t.threads.filterMap Thread.givingBack?
  let t := ranges.foldl (fun t (start, length) => t.discard start length) t
  { t with threads := t.threads.map fun th =>
      match th.givingBack? with
      | some (start, length) => { th with result := some (t.discardResult start length) }
      | none => th }

/-- The handler takes note of all faults, and then of all ranges given back. -/
def notice (t : Trap) : Trap :=
  let pending := t.pending ++ t.threads.filterMap Thread.fault?
  let threads := t.threads.map fun th => { th with noticed := true }
  { t with pending, threads }.discardAll

/-- Ends the trap: nothing is watched any more, and every thread goes on. -/
def close (t : Trap) : Trap :=
  let ks := t.mapped.flatMap fun (s, n) => framesOf s n
  let free := { t with armed := false, pending := [] }.update ks ({ · with trapped := false })
  (free.wake ks).discardAll

end Trap
end RamRestore
