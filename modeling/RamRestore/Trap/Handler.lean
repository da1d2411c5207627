import RamRestore.Trap.Watch

/-! # The fault handler

One handler serves a trap. In every round it takes note of what happened, serves all faults
it knows of in order, and then calls the idle callback, until that says that its work is
over. A fault whose service has to wait keeps the handler from everything else.
-/

namespace RamRestore

/-- Whoever serves the faults of a trap; `F` says how far the service of a fault has come. -/
class Pager (P : Type) (F : outParam Type) where
  trap : P → Trap
  withTrap : P → Trap → P
  /-- A fault at an address of which nothing has been done. -/
  fault : Nat → F
  /-- Goes on with a fault until it is served or has to wait. -/
  serve : P → F → Option F × P
  idle : P → IdleResult × P
  /-- Lets everything happen that needs no handler. -/
  rest : P → P
  /-- Idle calls that are enough for the work in the background. -/
  calls : P → Nat

structure Handler (P F : Type) where
  pager : P
  /-- The fault that waits. -/
  serving : Option F := none
  idleOver : Bool := false

namespace Handler

variable {P F : Type} [Pager P F]

def trap (h : Handler P F) : Trap := Pager.trap h.pager

def onTrap (h : Handler P F) (f : Trap → Trap) : Handler P F :=
  { h with pager := Pager.withTrap h.pager (f h.trap) }

def rest (h : Handler P F) : Handler P F := { h with pager := Pager.rest h.pager }

def goOn (h : Handler P F) (f : F) : Handler P F :=
  let (serving, pager) := Pager.serve h.pager f
  { h with serving, pager }

/-- Serves up to `n` faults in order, as far as none of them waits. -/
def serve (h : Handler P F) : (n : Nat) → Handler P F
  | 0 => h
  | n + 1 =>
    match h.serving, h.trap.pending with
    | some f, _ =>
      let h := h.goOn f
      if h.serving.isSome then h else h.serve n
    | none, a :: pending =>
      let h := (h.onTrap ({ · with pending })).goOn (Pager.fault P a)
      if h.serving.isSome then h else h.serve n
    | none, [] => h

def idle (h : Handler P F) : Handler P F :=
  if h.idleOver then h
  else
    let (result, pager) := Pager.idle h.pager
    { h with pager, idleOver := result == .allDone }

/-- The faults that are or may become known to the handler while it serves them. -/
def faults (h : Handler P F) : Nat := 1 + h.trap.threads.length + h.trap.pending.length

/-- One round of the handler, and of everything that needs no handler. -/
def round (h : Handler P F) : Handler P F :=
  let h := if h.serving.isSome then h else h.onTrap Trap.notice
  let h := h.serve h.faults
  (if h.serving.isSome then h else h.idle).rest

def isQuiet (h : Handler P F) : Bool :=
  !h.trap.armed ||
    h.idleOver && h.serving.isNone && h.trap.pending.isEmpty && !h.trap.hasNews

def run (h : Handler P F) : (n : Nat) → Handler P F
  | 0 => h
  | n + 1 => if h.isQuiet then h else h.round.run n

/-- Lets everything happen until only the guest can make something happen. -/
def settle (h : Handler P F) : Handler P F :=
  let h := h.rest
  h.run (Pager.calls h.pager + h.faults)

/-- Something that a guest thread does, and what came of it once everything has settled. -/
def perform (h : Handler P F) (action : Action) : Option ActionResult × Handler P F :=
  let h := (h.onTrap (·.spawn action)).settle
  (h.trap.threads.getLast?.bind (·.result),
    h.onTrap fun t => { t with threads := t.threads.dropLast })

def touchAll (h : Handler P F) (start length : Nat) : Handler P F :=
  (Memory.framesOf start length).foldl
    (fun h k => (h.perform (.touch (max start (k * Memory.frameSize)))).2) h

def read (h : Handler P F) (start length : Nat) : Bytes × Handler P F :=
  let h := h.touchAll start length
  (h.trap.memory.read start length, h)

def write (h : Handler P F) (start : Nat) (data : Bytes) : Handler P F :=
  (h.touchAll start data.size).onTrap fun t => { t with memory := t.memory.write start data }

/-- The results of all guest threads, which are forgotten. -/
def join (h : Handler P F) : List (Option ActionResult) × Handler P F :=
  (h.trap.threads.map (·.result), h.onTrap ({ · with threads := [] }))

def close (h : Handler P F) : Handler P F := { h.onTrap Trap.close with serving := none }

end Handler
end RamRestore
