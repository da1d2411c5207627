import RamRestore.Load

/-! # The protocol of a page

A page that has to be read is shared by the background reader, the idle callback and any number
of faults. What they do to it are atomic steps: a state is compared and set, or set, or looked
at, contents are parked or taken, the page is handed to the guest. Between two steps of one of
them the others may take any number of theirs.
-/

namespace RamRestore.Protocol

inductive Actor where
  | reader
  | idle
  | fault (k : Nat)
  deriving DecidableEq, Repr

inductive Point where
  | resting
  /-- About to claim the page for reading. -/
  | claiming
  /-- Waits for whoever reads the page. -/
  | awaiting
  | reading
  /-- Could not read the page. -/
  | failing
  /-- The reader has read the page. -/
  | parking (contents : Bytes)
  | publishing
  /-- About to tell the idle callback that the page was read. -/
  | sending
  /-- A fault has read the page. -/
  | announcing (contents : Bytes)
  /-- About to claim the page for filling. -/
  | seizing
  /-- Waits for whoever fills the page. -/
  | settling
  | taking
  /-- Has claimed the page for filling, but nothing is parked. -/
  | losing
  | filling (contents : Bytes)
  | storing (accepted : Bool)
  /-- About to return, with or without an error. -/
  | returning (ok : Bool)

/-- What is known of an actor from outside. -/
inductive Act where
  /-- The page went from empty to reading. -/
  | claimed
  /-- The page went from read to filling. -/
  | seized
  | stored (s : PageState)
  | put
  /-- Contents were taken, if there were any. -/
  | took (found : Bool)
  | filled (accepted : Bool)
  | returned (ok : Bool)
  deriving DecidableEq, Repr

namespace Act

def isPut : Act → Bool
  | .put => true
  | _ => false

def isTake : Act → Bool
  | .took _ => true
  | _ => false

def isFill : Act → Bool
  | .filled _ => true
  | _ => false

end Act

/-- What all actors see. -/
structure Shared where
  slot : Slot := {}
  /-- The reader has sent word that the page was read. -/
  sent : Bool := false

namespace Shared

def state (s : Shared) : PageState := s.slot.state

def parked (s : Shared) : Option Bytes := s.slot.parked

def store (s : Shared) (state : PageState) : Shared := { s with slot := { s.slot with state } }

def park (s : Shared) (parked : Option Bytes) : Shared := { s with slot := { s.slot with parked } }

end Shared

/-- One step of an actor: where it is and what it sees before, what it does, and the same after.
Reading a page and handing it to the guest may turn out in any way. -/
inductive Turn : Actor → Point → Shared → Option Act → Point → Shared → Prop
  /-- The reader is asked for the page, or a fault begins. -/
  | call {a : Actor} {s : Shared} (h : a ≠ .idle) : Turn a .resting s none .claiming s
  /-- The idle callback has word that the page was read. -/
  | receive {s : Shared} (h : s.sent = true) : Turn .idle .resting s none .seizing s
  | claim {a : Actor} {s : Shared} (h : s.state = .empty) :
      Turn a .claiming s (some .claimed) .reading (s.store .reading)
  /-- The reader leaves a page to whoever has it. -/
  | skip {s : Shared} (h : s.state ≠ .empty) : Turn .reader .claiming s none .resting s
  | join {k : Nat} {s : Shared} (h : s.state ≠ .empty) :
      Turn (.fault k) .claiming s none .awaiting s
  | await {a : Actor} {s : Shared} (h : s.state.rank < PageState.read.rank) :
      Turn a .awaiting s none .awaiting s
  | awaited {a : Actor} {s : Shared} (h : PageState.read.rank ≤ s.state.rank) :
      Turn a .awaiting s none .seizing s
  | read {s : Shared} (contents : Bytes) : Turn .reader .reading s none (.parking contents) s
  | readOwn {k : Nat} {s : Shared} (contents : Bytes) :
      Turn (.fault k) .reading s none (.announcing contents) s
  | readFailed {a : Actor} {s : Shared} : Turn a .reading s none .failing s
  | put {a : Actor} {s : Shared} {contents : Bytes} :
      Turn a (.parking contents) s (some .put) .publishing (s.park (some contents))
  | publish {a : Actor} {s : Shared} :
      Turn a .publishing s (some (.stored .read)) .sending (s.store .read)
  | send {a : Actor} {s : Shared} : Turn a .sending s none .resting { s with sent := true }
  | fail {s : Shared} :
      Turn .reader .failing s (some (.stored .error)) .resting (s.store .error)
  | failOwn {k : Nat} {s : Shared} :
      Turn (.fault k) .failing s (some (.stored .error)) (.returning false) (s.store .error)
  | announce {a : Actor} {s : Shared} {contents : Bytes} :
      Turn a (.announcing contents) s (some (.stored .filling)) (.filling contents)
        (s.store .filling)
  | seize {a : Actor} {s : Shared} (h : s.state = .read) :
      Turn a .seizing s (some .seized) .taking (s.store .filling)
  | beaten {a : Actor} {s : Shared} (h : s.state ≠ .read) : Turn a .seizing s none .settling s
  | settle {a : Actor} {s : Shared} (h : s.state.isTerminal = false) :
      Turn a .settling s none .settling s
  | settled {a : Actor} {s : Shared} (h : s.state.isTerminal = true) :
      Turn a .settling s none (.returning (s.state = .filled)) s
  | take {a : Actor} {s : Shared} {contents : Bytes} (h : s.parked = some contents) :
      Turn a .taking s (some (.took true)) (.filling contents) (s.park none)
  | miss {a : Actor} {s : Shared} (h : s.parked = none) :
      Turn a .taking s (some (.took false)) .losing s
  | lose {a : Actor} {s : Shared} :
      Turn a .losing s (some (.stored .error)) (.returning false) (s.store .error)
  | fill {a : Actor} {s : Shared} {contents : Bytes} (accepted : Bool) :
      Turn a (.filling contents) s (some (.filled accepted)) (.storing accepted) s
  | store {a : Actor} {s : Shared} {accepted : Bool} :
      Turn a (.storing accepted) s (some (.stored (if accepted then .filled else .error)))
        (.returning accepted) (s.store (if accepted then .filled else .error))
  | return {a : Actor} {s : Shared} {ok : Bool} :
      Turn a (.returning ok) s (some (.returned ok)) .resting s

structure Scene where
  shared : Shared := {}
  point : Actor → Point := fun _ => .resting
  /-- All that was done so far, last act first. -/
  log : List (Actor × Act) := []

def Scene.after (c : Scene) (a : Actor) (act : Option Act) (p : Point) (s : Shared) : Scene where
  shared := s
  point b := if b = a then p else c.point b
  log := act.toList.map (a, ·) ++ c.log

inductive Step (a : Actor) (act : Option Act) (c : Scene) : Scene → Prop
  | turn {p : Point} {s : Shared} (h : Turn a (c.point a) c.shared act p s) :
      Step a act c (c.after a act p s)

/-- The scenes that steps of all actors, in any order, lead to. -/
inductive Reachable : Scene → Prop
  | start : Reachable {}
  | step {a : Actor} {act : Option Act} {c c' : Scene} (h : Reachable c) (hs : Step a act c c') :
      Reachable c'

/-- Whether an actor has claimed the page, and has not yet put it into a state in which it is
somebody else's. A page that is put into `filling` is still its own. -/
def Owns (a : Actor) : List (Actor × Act) → Bool
  | [] => false
  | (b, act) :: log =>
    if b = a then
      match act with
      | .claimed | .seized => true
      | .stored s => s == .filling && Owns a log
      | _ => Owns a log
    else Owns a log

def puts (log : List (Actor × Act)) : Nat := log.countP (·.2.isPut)

def takes (log : List (Actor × Act)) : Nat := log.countP (·.2.isTake)

def fills (log : List (Actor × Act)) : Nat := log.countP (·.2.isFill)

end RamRestore.Protocol
